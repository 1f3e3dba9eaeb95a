import SliceIdl.Proofs.Json.CodeUnits
import SliceIdl.Proofs.Number.DecimalValue

/-!
# What is printed determines the value

The first character of a printed value tells its kind. A number ends where a bracket, a comma or
whitespace follows, which is so wherever one is printed; so the parts of a value can be told apart,
and two values that are printed alike differ at most in strings of the same code units.
-/

set_option autoImplicit false

namespace SliceIdl.Json
open Text (HeadNot headNot_cons)

def stops : List Char :=
  [',', ']', '\x7d', ' ', '\t', '\n', '\r']

def isStop (c : Char) : Bool :=
  c ∈ stops

def Stopped (t : Text) : Prop :=
  HeadNot (fun c => !isStop c) t

def Closing (t : Text) : Prop :=
  ∃ c rest, t = c :: rest ∧ isStop c = true ∧ c ≠ ','

variable {style : Style} {t t' r r' : Text}

theorem Closing.stopped (h : Closing r) : Stopped r := by
  obtain ⟨c, rest, rfl, hc, -⟩ := h
  exact headNot_cons.2 (by simp [hc])

theorem IsWhitespace.isStop {space : Text} (h : IsWhitespace space) :
    ∀ c ∈ space, isStop c = true ∧ c ∉ [',', ']', '\x7d'] := by
  have hall : ∀ c ∈ [' ', '\t', '\n', '\r'], Json.isStop c = true ∧ c ∉ [',', ']', '\x7d'] := by
    simp [Json.isStop, stops]
  exact fun c hc => hall c (h c hc)

theorem closing_margin (hs : style.IsLegal) (depth : Nat) {c : Char} (hc : c ∈ [']', '\x7d'])
    (rest : Text) : Closing (style.margin depth ++ c :: rest) := by
  have hall : ∀ c ∈ [']', '\x7d'], isStop c = true ∧ c ≠ ',' := by simp [isStop, stops]
  cases hm : style.margin depth with
  | nil => exact ⟨c, rest, rfl, hall c hc⟩
  | cons d space =>
    obtain ⟨hstop, hd⟩ := (hs.margin depth).isStop d (hm ▸ List.mem_cons_self)
    exact ⟨d, space ++ c :: rest, rfl, hstop, fun h => hd (h ▸ List.mem_cons_self)⟩

theorem append_inj_of_stopped (ht : ∀ c ∈ t, isStop c = false) (ht' : ∀ c ∈ t', isStop c = false)
    (hr : Stopped r) (hr' : Stopped r') (h : t ++ r = t' ++ r') : t = t' ∧ r = r' := by
  have hword := Text.takeWhile_append (p := fun c => !isStop c) (by simpa using ht) hr
  rw [h, Text.takeWhile_append (by simpa using ht') hr'] at hword
  rw [hword] at h
  exact ⟨hword.symm, List.append_cancel_left h⟩

inductive Kind where
  | null
  | bool (b : Bool)
  | number
  | str
  | arr
  | obj

def kind : Json → Kind
  | null => .null
  | bool b => .bool b
  | int _ | float _ => .number
  | str _ => .str
  | arr _ => .arr
  | obj _ => .obj

def Kind.ofChar (c : Char) : Kind :=
  if c = 'n' then .null
  else if c = 't' then .bool true
  else if c = 'f' then .bool false
  else if c = '"' then .str
  else if c = '[' then .arr
  else if c = '\x7b' then .obj
  else .number

/-- The characters that a number, infinity included, can start with. -/
def StartsNumber (c : Char) : Prop :=
  c.isDigit = true ∨ c = '-' ∨ c = 'I'

theorem StartsNumber.ofChar {c : Char} (h : StartsNumber c) :
    isStop c = false ∧ Kind.ofChar c = .number := by
  have hother : ∀ d ∈ stops ++ ['n', 't', 'f', '"', '[', '\x7b'], ¬ StartsNumber d := by
    simp [stops, StartsNumber]
  have hne (d : Char) (hd : d ∈ stops ++ ['n', 't', 'f', '"', '[', '\x7b']) : c ≠ d := by
    rintro rfl
    exact hother c hd h
  constructor
  · exact decide_eq_false fun hc => hne c (List.mem_append_left _ hc) rfl
  · rw [Kind.ofChar, if_neg (hne 'n' (by decide)), if_neg (hne 't' (by decide)),
      if_neg (hne 'f' (by decide)), if_neg (hne '"' (by decide)), if_neg (hne '[' (by decide)),
      if_neg (hne '\x7b' (by decide))]

theorem exists_ofInt (n : Int) : ∃ c t, Text.ofInt n = c :: t ∧ StartsNumber c := by
  cases n with
  | ofNat n =>
    obtain ⟨hne, hd⟩ := Text.ofNat_isDigits n
    obtain ⟨c, t, ht⟩ := List.exists_cons_of_ne_nil hne
    exact ⟨c, t, ht, .inl (hd c (ht ▸ List.mem_cons_self))⟩
  | negSucc n => exact ⟨'-', Text.ofNat (n + 1), rfl, .inr (.inl rfl)⟩

theorem exists_printFloat (x : Binary64) : ∃ c t, printFloat x = c :: t ∧ StartsNumber c := by
  rw [printFloat, Binary64.toText_eq]
  split
  · exact ⟨'-', _, rfl, .inr (.inl rfl)⟩
  rw [Binary64.unsignedText]
  split
  · exact ⟨'I', "nfinity".toList, rfl, .inr (.inr rfl)⟩
  · obtain ⟨c, t, ht, hc⟩ := x.exists_magnitudeText
    exact ⟨c, t, ht, .inl hc⟩

theorem exists_print (style : Style) (depth : Nat) (v : Json) : ∃ c t,
    print style depth v = c :: t ∧ isStop c = false ∧ Kind.ofChar c = v.kind := by
  cases v with
  | null => exact ⟨'n', "ull".toList, rfl, rfl, rfl⟩
  | bool b =>
    cases b with
    | true => exact ⟨'t', "rue".toList, rfl, rfl, rfl⟩
    | false => exact ⟨'f', "alse".toList, rfl, rfl, rfl⟩
  | int n =>
    obtain ⟨c, t, ht, hc⟩ := exists_ofInt n
    exact ⟨c, t, ht, hc.ofChar⟩
  | float x =>
    obtain ⟨c, t, ht, hc⟩ := exists_printFloat x
    exact ⟨c, t, ht, hc.ofChar⟩
  | str s => exact ⟨'"', _, rfl, rfl, rfl⟩
  | arr vs =>
    cases vs with
    | nil => exact ⟨'[', _, rfl, rfl, rfl⟩
    | cons v vs => exact ⟨'[', _, rfl, rfl, rfl⟩
  | obj ms =>
    cases ms with
    | nil => exact ⟨'\x7b', _, rfl, rfl, rfl⟩
    | cons m ms => exact ⟨'\x7b', _, rfl, rfl, rfl⟩

theorem kind_eq {depth : Nat} {v w : Json}
    (h : print style depth v ++ r = print style depth w ++ r') : v.kind = w.kind := by
  obtain ⟨c, t, ht, -, hk⟩ := exists_print style depth v
  obtain ⟨d, u, hu, -, hk'⟩ := exists_print style depth w
  rw [ht, hu, List.cons_append, List.cons_append] at h
  rw [← hk, ← hk', (List.cons.inj h).1]

theorem IsNumber.isStop {t : Text} (h : IsNumber t) : ∀ c ∈ t, isStop c = false := by
  have hstop : ∀ c ∈ stops, c.isDigit = false ∧ c ∉ numberSigns := by simp [stops, numberSigns]
  intro c hc
  exact decide_eq_false fun hmem => h.notMem (hstop c hmem).1 (hstop c hmem).2 hc

theorem isStop_printFloat (x : Binary64) : ∀ c ∈ printFloat x, isStop c = false := by
  cases h : x.isInfinite with
  | false => exact (Binary64.isNumber_toText h _).isStop
  | true =>
    rw [printFloat, Binary64.toText, h, if_pos rfl]
    split <;> simp [isStop, stops]

theorem ofInt_ne_printFloat (n : Int) (x : Binary64) : Text.ofInt n ≠ printFloat x := by
  intro h
  obtain ⟨c, hc, hmem⟩ : ∃ c ∈ ['.', 'e', 'I'], c ∈ printFloat x :=
    x.exists_mem_toText "nfinity".toList
  have hother : ∀ c ∈ ['.', 'e', 'I'], c.isDigit = false ∧ c ≠ '-' := by simp
  have hdigit := Text.isDigit_of_mem_ofInt (h ▸ hmem) (hother c hc).2
  rw [(hother c hc).1] at hdigit
  cases hdigit

theorem printFloat_injective {x y : Binary64} (h : printFloat x = printFloat y) : x = y := by
  have htext : x.toText ('I' :: "nfinity".toList) = y.toText ('I' :: "nfinity".toList) := h
  exact Binary64.toText_injective rfl (by decide) htext

theorem number_append_inj {depth : Nat} {v w : Json} (hv : v.kind = .number) (hw : w.kind = .number)
    (hr : Stopped r) (hr' : Stopped r')
    (h : print style depth v ++ r = print style depth w ++ r') : v = w ∧ r = r' := by
  have hstop (v : Json) (hv : v.kind = .number) : ∀ c ∈ print style depth v, isStop c = false := by
    cases v with
    | int n => exact (isNumber_ofInt n).isStop
    | float x => exact isStop_printFloat x
    | _ => cases hv
  obtain ⟨htext, hrest⟩ := append_inj_of_stopped (hstop v hv) (hstop w hw) hr hr' h
  refine ⟨?_, hrest⟩
  cases v with
  | int n =>
    cases w with
    | int n' => exact congrArg int (Text.ofInt_injective htext)
    | float x => exact absurd htext (ofInt_ne_printFloat n x)
    | _ => cases hw
  | float x =>
    cases w with
    | int n => exact absurd htext.symm (ofInt_ne_printFloat n x)
    | float y => exact congrArg float (printFloat_injective htext)
    | _ => cases hw
  | _ => cases hv

theorem print_arr_append (style : Style) (depth : Nat) (v : Json) (vs : List Json) (r : Text) :
    print style depth (arr (v :: vs)) ++ r = '[' :: (style.margin (depth + 1) ++
      (print style (depth + 1) v ++
        (printItems style (depth + 1) vs ++ (style.margin depth ++ ']' :: r)))) := by
  simp [print]

theorem print_obj_append (style : Style) (depth : Nat) (k : List CodePoint) (v : Json)
    (ms : List (List CodePoint × Json)) (r : Text) :
    print style depth (obj ((k, v) :: ms)) ++ r = '\x7b' :: (style.margin (depth + 1) ++
      (printString k ++ ':' :: ' ' :: (print style (depth + 1) v ++
        (printMembers style (depth + 1) ms ++ (style.margin depth ++ '\x7d' :: r))))) := by
  simp [print]

theorem printItems_append (style : Style) (depth : Nat) (v : Json) (vs : List Json) (r : Text) :
    printItems style depth (v :: vs) ++ r =
      style.separator depth ++ (print style depth v ++ (printItems style depth vs ++ r)) := by
  simp [printItems]

theorem printMembers_append (style : Style) (depth : Nat) (k : List CodePoint) (v : Json)
    (ms : List (List CodePoint × Json)) (r : Text) :
    printMembers style depth ((k, v) :: ms) ++ r = style.separator depth ++ (printString k ++
      ':' :: ' ' :: (print style depth v ++ (printMembers style depth ms ++ r))) := by
  simp [printMembers]

section
variable (hs : style.IsLegal) {depth : Nat}
include hs

theorem head?_separator_append (t : Text) : (style.separator depth ++ t).head? = some ',' := by
  obtain ⟨space, hsep, -⟩ := hs.separator depth
  rw [hsep]
  rfl

theorem Closing.ne_separator (hr : Closing r) (t : Text) : r ≠ style.separator depth ++ t := by
  obtain ⟨c, rest, rfl, -, hc⟩ := hr
  intro h
  have hhead : (style.separator depth ++ t).head? = some ',' := head?_separator_append hs t
  rw [← h] at hhead
  exact hc (Option.some.inj hhead)

theorem stopped_separator (t : Text) : Stopped (style.separator depth ++ t) := by
  obtain ⟨space, hsep, -⟩ := hs.separator depth
  rw [hsep]
  exact headNot_cons.2 rfl

theorem stopped_items (vs : List Json) (hr : Closing r) :
    Stopped (printItems style depth vs ++ r) := by
  cases vs with
  | nil => exact hr.stopped
  | cons v vs =>
    rw [printItems_append]
    exact stopped_separator hs _

theorem stopped_members (ms : List (List CodePoint × Json)) (hr : Closing r) :
    Stopped (printMembers style depth ms ++ r) := by
  cases ms with
  | nil => exact hr.stopped
  | cons m ms =>
    rw [printMembers_append]
    exact stopped_separator hs _

theorem margin_append_ne {c d : Char} (hc : isStop c = false) (hd : d ∈ [']', '\x7d'])
    (t u : Text) : d :: u ≠ style.margin depth ++ c :: t := by
  have hstop : ∀ d ∈ [']', '\x7d'], isStop d = true := by simp [isStop, stops]
  cases hm : style.margin depth with
  | nil =>
    rintro ⟨⟩
    rw [hstop c hd] at hc
    cases hc
  | cons e space =>
    rintro ⟨⟩
    exact ((hs.margin depth).isStop d (hm ▸ List.mem_cons_self)).2 (List.mem_cons_of_mem _ hd)

theorem print_arr_nil_ne (v : Json) (vs : List Json) :
    print style depth (arr []) ++ r ≠ print style depth (arr (v :: vs)) ++ r' := by
  obtain ⟨c, t, ht, hc, -⟩ := exists_print style (depth + 1) v
  rw [print, print_arr_append, ht]
  intro h
  exact margin_append_ne hs hc (by decide) _ _ (List.cons.inj h).2

theorem print_obj_nil_ne (m : List CodePoint × Json) (ms : List (List CodePoint × Json)) :
    print style depth (obj []) ++ r ≠ print style depth (obj (m :: ms)) ++ r' := by
  rw [print, print_obj_append]
  intro h
  exact margin_append_ne hs (c := '"') rfl (by decide) _ _ (List.cons.inj h).2

end

mutual

theorem print_append_inj (hs : style.IsLegal) (depth : Nat) : (v w : Json) → {r r' : Text} →
    Stopped r → Stopped r' → print style depth v ++ r = print style depth w ++ r' →
      v.utf16 = w.utf16 ∧ r = r'
  | null, w, r, r', hr, hr', h => by
    cases w with
    | null => exact ⟨rfl, List.append_cancel_left h⟩
    | _ => cases kind_eq h
  | bool b, w, r, r', hr, hr', h => by
    have hk := kind_eq h
    cases w with
    | bool b' =>
      cases hk
      exact ⟨rfl, List.append_cancel_left h⟩
    | _ => cases hk
  | int n, w, r, r', hr, hr', h => by
    obtain ⟨rfl, hrest⟩ := number_append_inj rfl (kind_eq h).symm hr hr' h
    exact ⟨rfl, hrest⟩
  | float x, w, r, r', hr, hr', h => by
    obtain ⟨rfl, hrest⟩ := number_append_inj rfl (kind_eq h).symm hr hr' h
    exact ⟨rfl, hrest⟩
  | str s, w, r, r', hr, hr', h => by
    cases w with
    | str s' =>
      obtain ⟨hs, hrest⟩ := printString_append_inj h
      exact ⟨congrArg str hs, hrest⟩
    | _ => cases kind_eq h
  | arr [], w, r, r', hr, hr', h => by
    cases w with
    | arr ws =>
      cases ws with
      | nil => exact ⟨rfl, List.append_cancel_left h⟩
      | cons w ws => exact absurd h (print_arr_nil_ne hs w ws)
    | _ => cases kind_eq h
  | arr (v :: vs), w, r, r', hr, hr', h => by
    cases w with
    | arr ws =>
      cases ws with
      | nil => exact absurd h.symm (print_arr_nil_ne hs v vs)
      | cons w ws =>
        rw [print_arr_append, print_arr_append] at h
        have hclosing := closing_margin hs depth (c := ']') (by decide)
        obtain ⟨hv, h⟩ := print_append_inj hs (depth + 1) v w (stopped_items hs vs (hclosing r))
          (stopped_items hs ws (hclosing r')) (List.append_cancel_left (List.cons.inj h).2)
        obtain ⟨hvs, h⟩ := printItems_append_inj hs (depth + 1) vs ws (hclosing r) (hclosing r') h
        exact ⟨congrArg arr (congrArg₂ List.cons hv hvs),
          (List.cons.inj (List.append_cancel_left h)).2⟩
    | _ => cases kind_eq h
  | obj [], w, r, r', hr, hr', h => by
    cases w with
    | obj ns =>
      cases ns with
      | nil => exact ⟨rfl, List.append_cancel_left h⟩
      | cons n ns => exact absurd h (print_obj_nil_ne hs n ns)
    | _ => cases kind_eq h
  | obj ((k, v) :: ms), w, r, r', hr, hr', h => by
    cases w with
    | obj ns =>
      cases ns with
      | nil => exact absurd h.symm (print_obj_nil_ne hs (k, v) ms)
      | cons n ns =>
        obtain ⟨k', w⟩ := n
        rw [print_obj_append, print_obj_append] at h
        have hclosing := closing_margin hs depth (c := '\x7d') (by decide)
        obtain ⟨hk, h⟩ := printString_append_inj (List.append_cancel_left (List.cons.inj h).2)
        obtain ⟨hv, h⟩ := print_append_inj hs (depth + 1) v w (stopped_members hs ms (hclosing r))
          (stopped_members hs ns (hclosing r')) (List.cons.inj (List.cons.inj h).2).2
        obtain ⟨hms, h⟩ := printMembers_append_inj hs (depth + 1) ms ns (hclosing r) (hclosing r') h
        exact ⟨congrArg obj (congrArg₂ List.cons (Prod.ext hk hv) hms),
          (List.cons.inj (List.append_cancel_left h)).2⟩
    | _ => cases kind_eq h

theorem printItems_append_inj (hs : style.IsLegal) (depth : Nat) : (vs ws : List Json) →
    {r r' : Text} → Closing r → Closing r' →
      printItems style depth vs ++ r = printItems style depth ws ++ r' →
        mapItems codeUnits vs = mapItems codeUnits ws ∧ r = r'
  | [], [], r, r', hr, hr', h => ⟨rfl, h⟩
  | [], w :: ws, r, r', hr, hr', h => by
    rw [printItems_append] at h
    exact absurd h (hr.ne_separator hs _)
  | v :: vs, [], r, r', hr, hr', h => by
    rw [printItems_append] at h
    exact absurd h.symm (hr'.ne_separator hs _)
  | v :: vs, w :: ws, r, r', hr, hr', h => by
    rw [printItems_append, printItems_append] at h
    obtain ⟨hv, h⟩ := print_append_inj hs depth v w (stopped_items hs vs hr)
      (stopped_items hs ws hr') (List.append_cancel_left h)
    obtain ⟨hvs, h⟩ := printItems_append_inj hs depth vs ws hr hr' h
    exact ⟨congrArg₂ List.cons hv hvs, h⟩

theorem printMembers_append_inj (hs : style.IsLegal) (depth : Nat) :
    (ms ns : List (List CodePoint × Json)) → {r r' : Text} → Closing r → Closing r' →
      printMembers style depth ms ++ r = printMembers style depth ns ++ r' →
        mapMembers codeUnits ms = mapMembers codeUnits ns ∧ r = r'
  | [], [], r, r', hr, hr', h => ⟨rfl, h⟩
  | [], n :: ns, r, r', hr, hr', h => by
    rw [printMembers_append] at h
    exact absurd h (hr.ne_separator hs _)
  | m :: ms, [], r, r', hr, hr', h => by
    rw [printMembers_append] at h
    exact absurd h.symm (hr'.ne_separator hs _)
  | (k, v) :: ms, (k', w) :: ns, r, r', hr, hr', h => by
    rw [printMembers_append, printMembers_append] at h
    obtain ⟨hk, h⟩ := printString_append_inj (List.append_cancel_left h)
    obtain ⟨hv, h⟩ := print_append_inj hs depth v w (stopped_members hs ms hr)
      (stopped_members hs ns hr') (List.cons.inj (List.cons.inj h).2).2
    obtain ⟨hms, h⟩ := printMembers_append_inj hs depth ms ns hr hr' h
    exact ⟨congrArg₂ List.cons (Prod.ext hk hv) hms, h⟩

end

/-- Values are printed alike if and only if they agree up to the code units of their strings. -/
theorem print_eq_iff (hs : style.IsLegal) {depth : Nat} {v w : Json} :
    print style depth v = print style depth w ↔ v.utf16 = w.utf16 := by
  constructor
  · intro h
    have happend : print style depth v ++ [] = print style depth w ++ [] := by rw [h]
    exact (print_append_inj hs depth v w Text.headNot_nil Text.headNot_nil happend).1
  · intro h
    rw [← print_utf16, h, print_utf16]

end SliceIdl.Json
