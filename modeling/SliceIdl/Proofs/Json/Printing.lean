import SliceIdl.Json.Printer
import SliceIdl.Proofs.Number.DecimalText

/-!
# What is printed is JSON

What is printed in front of a text is the plain print of the value and then that text. Every code
point is printed as a string can have it, a surrogate as any other one, and every number as JSON has
it unless it is infinite. So the text of a value is a JSON text if and only if there is no infinite
number in it.
-/

set_option autoImplicit false

namespace SliceIdl.Json

mutual

def print (style : Style) (depth : Nat) : Json → Text
  | null => "null".toList
  | bool true => "true".toList
  | bool false => "false".toList
  | int n => Text.ofInt n
  | float x => printFloat x
  | str s => printString s
  | arr [] => ['[', ']']
  | arr (v :: vs) =>
    '[' :: style.margin (depth + 1) ++ print style (depth + 1) v
      ++ printItems style (depth + 1) vs ++ style.margin depth ++ [']']
  | obj [] => ['\x7b', '\x7d']
  | obj ((k, v) :: ms) =>
    '\x7b' :: style.margin (depth + 1) ++ printString k ++ ':' :: ' '
      :: print style (depth + 1) v
      ++ printMembers style (depth + 1) ms ++ style.margin depth ++ ['\x7d']

def printItems (style : Style) (depth : Nat) : List Json → Text
  | [] => []
  | v :: vs => style.separator depth ++ print style depth v ++ printItems style depth vs

def printMembers (style : Style) (depth : Nat) : List (List CodePoint × Json) → Text
  | [] => []
  | (k, v) :: ms =>
    style.separator depth ++ printString k ++ ':' :: ' ' :: print style depth v
      ++ printMembers style depth ms

end

mutual

theorem printOnto_eq (style : Style) (depth : Nat) :
    (v : Json) → (rest : Text) → printOnto style depth v rest = print style depth v ++ rest
  | null, _ | bool true, _ | bool false, _ | int _, _ | float _, _ | str _, _ | arr [], _
  | obj [], _ => by simp [printOnto, print]
  | arr (v :: vs), rest => by
    simp [printOnto, print, printOnto_eq style (depth + 1) v,
      printItemsOnto_eq style (depth + 1) vs]
  | obj ((k, v) :: ms), rest => by
    simp [printOnto, print, printOnto_eq style (depth + 1) v,
      printMembersOnto_eq style (depth + 1) ms]

theorem printItemsOnto_eq (style : Style) (depth : Nat) :
    (vs : List Json) → (rest : Text) →
      printItemsOnto style depth vs rest = printItems style depth vs ++ rest
  | [], _ => by simp [printItemsOnto, printItems]
  | v :: vs, rest => by
    simp [printItemsOnto, printItems, printOnto_eq style depth v,
      printItemsOnto_eq style depth vs]

theorem printMembersOnto_eq (style : Style) (depth : Nat) :
    (ms : List (List CodePoint × Json)) → (rest : Text) →
      printMembersOnto style depth ms rest = printMembers style depth ms ++ rest
  | [], _ => by simp [printMembersOnto, printMembers]
  | (k, v) :: ms, rest => by
    simp [printMembersOnto, printMembers, printOnto_eq style depth v,
      printMembersOnto_eq style depth ms]

end

theorem render?_eq (v : Json) :
    render? v = if v.hasLongNumber then none else some (print .indented 0 v) := by
  rw [render?, printOnto_eq, List.append_nil]

mutual

/-- The binary64 numbers of a value in the order in which they are printed. -/
def floats : Json → List Binary64
  | null | bool _ | int _ | str _ => []
  | float x => [x]
  | arr vs => itemFloats vs
  | obj ms => memberFloats ms

def itemFloats : List Json → List Binary64
  | [] => []
  | v :: vs => floats v ++ itemFloats vs

def memberFloats : List (List CodePoint × Json) → List Binary64
  | [] => []
  | (_, v) :: ms => floats v ++ memberFloats ms

end

def AnyInfinite (xs : List Binary64) : Prop :=
  ∃ x ∈ xs, x.isInfinite = true

theorem anyInfinite_append {xs ys : List Binary64} :
    AnyInfinite (xs ++ ys) ↔ AnyInfinite xs ∨ AnyInfinite ys := by
  simp [AnyInfinite, or_and_right, exists_or]

theorem not_anyInfinite {xs : List Binary64} :
    ¬ AnyInfinite xs ↔ ∀ x ∈ xs, x.isInfinite = false := by
  simp [AnyInfinite]

theorem IsInside.append {t u : Text} (ht : IsInside t) (hu : IsInside u) : IsInside (t ++ u) := by
  induction ht with
  | nil => exact hu
  | plain hc hq hb h ih => exact .plain hc hq hb ih
  | escape hc h ih => exact .escape hc ih
  | unit hl hd h ih =>
    rw [List.append_assoc]
    exact .unit hl hd ih

theorem hexDigits_length (width n : Nat) : (Text.hexDigits width n).length = width := by
  induction width generalizing n with
  | zero => rfl
  | succ width ih => rw [Text.hexDigits, List.length_append, ih, List.length_singleton]

theorem hexValue?_hexDigit : ∀ d < 16, Text.hexValue? (Text.hexDigit d) = some d := by
  decide

theorem isHexDigit_hexDigits (width n : Nat) : ∀ c ∈ Text.hexDigits width n, Text.isHexDigit c := by
  induction width generalizing n with
  | zero => exact fun c hc => absurd hc List.not_mem_nil
  | succ width ih =>
    intro c hc
    rcases List.mem_append.1 hc with hc | hc
    · exact ih _ c hc
    · rw [List.mem_singleton.1 hc]
      exact Option.isSome_of_eq_some (hexValue?_hexDigit _ (Nat.mod_lt _ (by decide)))

theorem isInside_escapedUnit (n : Nat) : IsInside (escapedUnit n) := by
  have h := IsInside.unit (hexDigits_length 4 n) (isHexDigit_hexDigits 4 n) .nil
  rwa [List.append_nil] at h

theorem toNat_ofNat_ascii : ∀ n < 127, (Char.ofNat n).toNat = n := by
  decide

theorem isInside_escaped (c : CodePoint) : IsInside (escaped c) := by
  rw [escaped]
  split
  · exact .escape (by decide) .nil
  next hquote =>
  split
  · exact .escape (by decide) .nil
  next hbackslash =>
  iterate 5
    split
    · exact .escape (by decide) .nil
  split
  next hprintable =>
    have hval : (Char.ofNat c).toNat = c := toNat_ofNat_ascii c (by omega)
    refine .plain (by omega) ?_ ?_ .nil
    · intro h
      exact hquote (by rw [← hval, h]; rfl)
    · intro h
      exact hbackslash (by rw [← hval, h]; rfl)
  split
  · exact isInside_escapedUnit c
  · exact (isInside_escapedUnit _).append (isInside_escapedUnit _)

theorem isString_printString (s : List CodePoint) : IsString (printString s) := by
  refine .quoted ?_
  induction s with
  | nil => exact .nil
  | cons c s ih => exact (isInside_escaped c).append ih

/-- A style that puts none but whitespace between brackets, commas and values. -/
structure Style.IsLegal (style : Style) : Prop where
  margin (depth : Nat) : IsWhitespace (style.margin depth)
  separator (depth : Nat) :
    ∃ space, style.separator depth = ',' :: space ∧ IsWhitespace space

theorem isWhitespace_nil : IsWhitespace [] :=
  fun _ h => absurd h List.not_mem_nil

theorem isWhitespace_space : IsWhitespace [' '] :=
  List.forall_mem_singleton.2 List.mem_cons_self

theorem isWhitespace_newline (n : Nat) : IsWhitespace ('\n' :: List.replicate n ' ') := by
  intro c hc
  rcases List.mem_cons.1 hc with rfl | hc
  · decide
  · rw [(List.mem_replicate.1 hc).2]
    decide

theorem Style.indented_isLegal : indented.IsLegal where
  margin depth := isWhitespace_newline (2 * depth)
  separator depth := ⟨_, rfl, isWhitespace_newline (2 * depth)⟩

theorem shows_printFloat (x : Binary64) : Shows (AnyInfinite [x]) (printFloat x) := by
  refine Shows.of_iff (p := x.isInfinite = true) ?_ (by simp [AnyInfinite])
  cases h : x.isInfinite with
  | false => exact (Binary64.isNumber_toText h _).shows.of_iff (by simp)
  | true =>
    rw [printFloat, Binary64.toText, h, if_pos rfl]
    split <;> exact (shows_of_quoteless (by decide)).of_iff (by decide)

variable {style : Style}

theorem Shows.none {t : Text} (h : Shows False t) : Shows (AnyInfinite []) t :=
  h.of_iff (by simp [AnyInfinite])

theorem Shows.both {t u : Text} {xs ys : List Binary64} (ht : Shows (AnyInfinite xs) t)
    (hu : Shows (AnyInfinite ys) u) : Shows (AnyInfinite (xs ++ ys)) (t ++ u) :=
  (ht.append hu).of_iff anyInfinite_append.symm

theorem shows_member (k : List CodePoint) {p : Prop} {v : Text} (h : Shows p v) :
    Shows p (printString k ++ ':' :: ' ' :: v) :=
  (isString_printString k).shows.plain_append
    ((h.mark (c := ' ') (by decide)).mark (c := ':') (by decide))

mutual

theorem shows_print (hs : style.IsLegal) (depth : Nat) :
    (v : Json) → Shows (AnyInfinite v.floats) (print style depth v)
  | null | bool true | bool false | arr [] | obj [] => by
    rw [print]
    exact (shows_plain (by decide) (by decide)).none
  | int n => by
    rw [print]
    exact (isNumber_ofInt n).shows.none
  | float x => by
    rw [print]
    exact shows_printFloat x
  | str s => by
    rw [print]
    exact (isString_printString s).shows.none
  | arr (v :: vs) => by
    have hitems := (shows_print hs (depth + 1) v).both (shows_printItems hs (depth + 1) vs)
    have hinside := ((hs.margin (depth + 1)).shows.plain_append hitems).append_plain
      (hs.margin depth).shows
    rw [print, floats, itemFloats]
    simpa only [List.append_assoc, List.cons_append] using
      (hinside.mark (c := '[') (by decide)).closed (c := ']') (by decide)
  | obj ((k, v) :: ms) => by
    have hmembers := (shows_member k (shows_print hs (depth + 1) v)).both
      (shows_printMembers hs (depth + 1) ms)
    have hinside := ((hs.margin (depth + 1)).shows.plain_append hmembers).append_plain
      (hs.margin depth).shows
    rw [print, floats, memberFloats]
    simpa only [List.append_assoc, List.cons_append] using
      (hinside.mark (c := '\x7b') (by decide)).closed (c := '\x7d') (by decide)

theorem shows_printItems (hs : style.IsLegal) (depth : Nat) :
    (vs : List Json) → Shows (AnyInfinite (itemFloats vs)) (printItems style depth vs)
  | [] => (shows_plain List.not_mem_nil List.not_mem_nil).none
  | v :: vs => by
    obtain ⟨space, hsep, hspace⟩ := hs.separator depth
    have hitems := (shows_print hs depth v).both (shows_printItems hs depth vs)
    rw [printItems, itemFloats, hsep]
    simpa only [List.append_assoc, List.cons_append] using
      (hspace.shows.plain_append hitems).mark (c := ',') (by decide)

theorem shows_printMembers (hs : style.IsLegal) (depth : Nat) :
    (ms : List (List CodePoint × Json)) →
      Shows (AnyInfinite (memberFloats ms)) (printMembers style depth ms)
  | [] => (shows_plain List.not_mem_nil List.not_mem_nil).none
  | (k, v) :: ms => by
    obtain ⟨space, hsep, hspace⟩ := hs.separator depth
    have hmembers := (shows_member k (shows_print hs depth v)).both (shows_printMembers hs depth ms)
    rw [printMembers, memberFloats, hsep]
    simpa only [List.append_assoc, List.cons_append] using
      (hspace.shows.plain_append hmembers).mark (c := ',') (by decide)

end

mutual

theorem isValue_print (hs : style.IsLegal) (depth : Nat) :
    (v : Json) → (∀ x ∈ v.floats, x.isInfinite = false) → IsValue (print style depth v)
  | null, _ => by
    rw [print]
    exact .null
  | bool true, _ => by
    rw [print]
    exact .true
  | bool false, _ => by
    rw [print]
    exact .false
  | int n, _ => by
    rw [print]
    exact .number (isNumber_ofInt n)
  | float x, h => by
    rw [print]
    exact .number (Binary64.isNumber_toText (h x (List.mem_singleton_self x)) _)
  | str s, _ => by
    rw [print]
    exact .string (isString_printString s)
  | arr [], _ => by
    rw [print]
    exact .emptyArray isWhitespace_nil
  | obj [], _ => by
    rw [print]
    exact .emptyObject isWhitespace_nil
  | arr (v :: vs), h => by
    rw [floats, itemFloats, List.forall_mem_append] at h
    have hitems := isItems_print hs (depth + 1) vs h.2 (hs.margin (depth + 1))
      (isValue_print hs (depth + 1) v h.1) (hs.margin depth)
    rw [print]
    simpa only [List.append_assoc, List.cons_append] using IsValue.array hitems
  | obj ((k, v) :: ms), h => by
    rw [floats, memberFloats, List.forall_mem_append] at h
    have hmembers := isMembers_print hs (depth + 1) ms h.2 (hs.margin (depth + 1)) k
      (isValue_print hs (depth + 1) v h.1) (hs.margin depth)
    rw [print]
    simpa only [List.append_assoc, List.cons_append] using IsValue.object hmembers

theorem isItems_print (hs : style.IsLegal) (depth : Nat) :
    (vs : List Json) → (∀ x ∈ itemFloats vs, x.isInfinite = false) → {before v after : Text} →
      IsWhitespace before → IsValue v → IsWhitespace after →
      IsItems (before ++ v ++ printItems style depth vs ++ after)
  | [], _, before, v, after, hb, hv, ha => by
    rw [printItems, List.append_nil]
    exact .last (.padded hb hv ha)
  | u :: us, h, before, v, after, hb, hv, ha => by
    rw [itemFloats, List.forall_mem_append] at h
    obtain ⟨space, hsep, hspace⟩ := hs.separator depth
    have hrest := isItems_print hs depth us h.2 hspace (isValue_print hs depth u h.1) ha
    rw [printItems, hsep]
    simpa only [List.append_assoc, List.cons_append, List.nil_append] using
      IsItems.next (.padded hb hv isWhitespace_nil) hrest

theorem isMembers_print (hs : style.IsLegal) (depth : Nat) :
    (ms : List (List CodePoint × Json)) → (∀ x ∈ memberFloats ms, x.isInfinite = false) →
      {before v after : Text} → IsWhitespace before → (k : List CodePoint) → IsValue v →
      IsWhitespace after →
      IsMembers (before ++ printString k ++ ':' :: ' ' :: v ++ printMembers style depth ms ++ after)
  | [], _, before, v, after, hb, k, hv, ha => by
    rw [printMembers, List.append_nil]
    have hvalue := IsText.padded isWhitespace_space hv ha
    simpa only [List.append_assoc, List.cons_append, List.nil_append] using
      IsMembers.last hb (isString_printString k) isWhitespace_nil hvalue
  | (k', u) :: ms, h, before, v, after, hb, k, hv, ha => by
    rw [memberFloats, List.forall_mem_append] at h
    obtain ⟨space, hsep, hspace⟩ := hs.separator depth
    have hrest := isMembers_print hs depth ms h.2 hspace k' (isValue_print hs depth u h.1) ha
    have hvalue := IsText.padded isWhitespace_space hv isWhitespace_nil
    rw [printMembers, hsep]
    simpa only [List.append_assoc, List.cons_append, List.nil_append] using
      IsMembers.next hb (isString_printString k) isWhitespace_nil hvalue hrest

end

/-- What is printed is a JSON text if and only if no number in it is infinite. -/
theorem isText_print_iff (hs : style.IsLegal) (depth : Nat) (v : Json) :
    IsText (print style depth v) ↔ ∀ x ∈ v.floats, x.isInfinite = false := by
  rw [← not_anyInfinite]
  constructor
  · intro htext h
    exact (shows_print hs depth v).not_isText h htext
  · intro h
    have hvalue := isValue_print hs depth v (not_anyInfinite.1 h)
    have htext := IsText.padded isWhitespace_nil hvalue isWhitespace_nil
    rwa [List.nil_append, List.append_nil] at htext

end SliceIdl.Json
