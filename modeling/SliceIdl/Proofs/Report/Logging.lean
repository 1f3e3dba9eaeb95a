import Mathlib.Data.List.Basic
import Mathlib.Data.List.Induction
import SliceIdl.Report.Log

/-!
# What handlers receive

A logger has the foreign handlers that were added and, once it is configured, one own handler, for
the newest stream and at the level in force. So a record that passes this level is taken by each of
them, and any other record by none. Over a whole history the text of a stream is that of the records
that pass between its configuration and the next one, and a foreign handler has received the records
that pass after it was added.
-/

set_option autoImplicit false

namespace SliceIdl

inductive LogStep where
  | configure (verbosity : Int)
  | addForeign
  | log (r : Record)
  deriving DecidableEq

namespace LogStep

def verbosity? : LogStep → Option Int
  | configure v => some v
  | addForeign | log _ => none

def record? : LogStep → Option Record
  | log r => some r
  | configure _ | addForeign => none

end LogStep

namespace Logger

def perform (l : Logger) : LogStep → Logger
  | .configure v => l.configure v
  | .addForeign => l.addForeign
  | .log r => l.log r

def after (steps : List LogStep) : Logger :=
  steps.foldl perform fresh

end Logger

namespace LogStep

def verbosities (steps : List LogStep) : List Int :=
  steps.filterMap verbosity?

def addedCount (steps : List LogStep) : Nat :=
  steps.count addForeign

def lastLevel? (steps : List LogStep) : Option Level :=
  (verbosities steps).getLast?.map Level.ofVerbosity

/-- The records that pass the level in force when they are logged, if `least` is in force at
first. -/
def passing (least : Level) : List LogStep → List Record
  | [] => []
  | configure v :: steps => passing (.ofVerbosity v) steps
  | addForeign :: steps => passing least steps
  | log r :: steps =>
    if least.passes r.level then r :: passing least steps else passing least steps

def untilConfigured (steps : List LogStep) : List LogStep :=
  steps.takeWhile fun step => step.verbosity?.isNone

def lines (rs : List Record) : Text :=
  rs.flatMap fun r => r.consoleLine ++ ['\n']

theorem verbosities_concat (steps : List LogStep) (step : LogStep) :
    verbosities (steps ++ [step]) = verbosities steps ++ step.verbosity?.toList := by
  rw [verbosities, List.filterMap_append, verbosities]
  cases step <;> rfl

end LogStep

theorem Level.debug_passes (level : Level) : Level.passes .debug level = true := by
  cases level <;> rfl

namespace Handler

def onStreams (r : Record) (streams : List Text) (h : Handler) : List Text :=
  match h.sink with
  | .stream i =>
    if h.level.passes r.level then streams.modify i (· ++ r.consoleLine ++ ['\n']) else streams
  | .foreign _ => streams

def onForeign (r : Record) (foreign : List (List Record)) (h : Handler) : List (List Record) :=
  match h.sink with
  | .stream _ => foreign
  | .foreign i => if h.level.passes r.level then foreign.modify i (· ++ [r]) else foreign

end Handler

namespace Logger
open Handler

variable {l : Logger} {r : Record}

theorem hand_eq (r : Record) (l : Logger) (h : Handler) :
    hand r l h = ⟨l.level, l.handlers, h.onStreams r l.streams, h.onForeign r l.foreign⟩ := by
  obtain ⟨sink, level⟩ := h
  rw [hand]
  cases sink with
  | stream i =>
    simp only [onStreams, onForeign]
    split <;> rfl
  | foreign i =>
    simp only [onStreams, onForeign]
    split <;> rfl

theorem foldl_hand (r : Record) (l : Logger) (hs : List Handler) :
    hs.foldl (hand r) l =
      ⟨l.level, l.handlers, hs.foldl (onStreams r) l.streams, hs.foldl (onForeign r) l.foreign⟩ := by
  induction hs generalizing l with
  | nil => rfl
  | cons h hs ih => rw [List.foldl_cons, ih, hand_eq, List.foldl_cons, List.foldl_cons]

theorem foldl_onStreams (r : Record) (streams : List Text) (hs : List Handler) :
    hs.foldl (onStreams r) streams = (hs.filter (·.isOwn)).foldl (onStreams r) streams := by
  rw [List.foldl_filter]
  congr 1
  funext streams h
  obtain ⟨sink, level⟩ := h
  cases sink <;> simp [isOwn, onStreams]

theorem foldl_onForeign (r : Record) (foreign : List (List Record)) (hs : List Handler) :
    hs.foldl (onForeign r) foreign = (hs.filter (!·.isOwn)).foldl (onForeign r) foreign := by
  rw [List.foldl_filter]
  congr 1
  funext foreign h
  obtain ⟨sink, level⟩ := h
  cases sink <;> simp [isOwn, onForeign]

theorem foldl_modify_range {α : Type} (f : α → α) (xs : List α) :
    (List.range xs.length).foldl (fun ys i => ys.modify i f) xs = xs.map f := by
  have hfirst (n : Nat) (i : Nat) : ((List.range n).foldl (fun ys i => ys.modify i f) xs)[i]? =
      if i < n then xs[i]?.map f else xs[i]? := by
    induction n with
    | zero => rfl
    | succ n ih =>
      rw [List.range_succ, List.foldl_append, List.foldl_cons, List.foldl_nil, List.getElem?_modify,
        ih]
      rcases Nat.lt_trichotomy i n with hlt | rfl | hgt
      · simp [hlt, Nat.lt_succ_of_lt hlt, Nat.ne_of_gt hlt]
      · simp
      · simp [Nat.not_lt_of_gt hgt, Nat.ne_of_lt hgt, Nat.not_lt.2 hgt]
  refine List.ext_getElem? fun i => ?_
  rw [hfirst, List.getElem?_map]
  split
  · rfl
  · next h => rw [List.getElem?_eq_none (by omega), Option.map_none]

theorem modify_concat {α : Type} (f : α → α) (xs : List α) (x : α) :
    (xs ++ [x]).modify xs.length f = xs ++ [f x] := by
  simp [List.modify_eq_take_cons_drop]

/-- Each foreign handler is attached once, and one own handler for the newest stream, if there is a
level in force, at this level. -/
structure Sound (l : Logger) : Prop where
  own : l.handlers.filter (·.isOwn) =
    l.level.toList.map fun level => ⟨.stream (l.streams.length - 1), level⟩
  foreign : l.handlers.filter (!·.isOwn) =
    (List.range l.foreign.length).map fun i => ⟨.foreign i, .debug⟩

theorem fresh_sound : fresh.Sound :=
  ⟨rfl, rfl⟩

theorem Sound.configure (h : l.Sound) (verbosity : Int) : (l.configure verbosity).Sound where
  own := by
    simp [Logger.configure, List.filter_filter, isOwn]
  foreign := by
    rw [Logger.configure, List.filter_append, List.filter_filter]
    simpa [isOwn] using h.foreign

theorem Sound.addForeign (h : l.Sound) : l.addForeign.Sound where
  own := by
    rw [Logger.addForeign, List.filter_append, h.own]
    simp [isOwn]
  foreign := by
    rw [Logger.addForeign, List.filter_append, h.foreign]
    simp [isOwn, List.range_succ]

theorem Sound.log_of_passes (h : l.Sound) (hr : l.effectiveLevel.passes r.level = true) :
    l.log r = ⟨l.level, l.handlers,
      if l.level.isSome then
        l.streams.modify (l.streams.length - 1) (· ++ r.consoleLine ++ ['\n'])
      else l.streams,
      l.foreign.map (· ++ [r])⟩ := by
  have hstreams : (l.handlers.filter (·.isOwn)).foldl (onStreams r) l.streams =
      if l.level.isSome then
        l.streams.modify (l.streams.length - 1) (· ++ r.consoleLine ++ ['\n'])
      else l.streams := by
    rw [h.own]
    cases hl : l.level with
    | none => rfl
    | some level =>
      rw [effectiveLevel, hl, Option.getD_some] at hr
      simp [onStreams, hr]
  have hforeign : (l.handlers.filter (!·.isOwn)).foldl (onForeign r) l.foreign =
      l.foreign.map (· ++ [r]) := by
    rw [h.foreign, List.foldl_map, ← foldl_modify_range]
    simp [onForeign, Level.debug_passes]
  rw [Logger.log, if_pos hr, foldl_hand, foldl_onStreams, foldl_onForeign, hstreams, hforeign]

theorem log_of_not_passes (hr : l.effectiveLevel.passes r.level = false) : l.log r = l := by
  rw [log, hr, if_neg Bool.false_ne_true]

theorem log_level (l : Logger) (r : Record) : (l.log r).level = l.level := by
  rw [log]
  split
  · rw [foldl_hand]
  · rfl

theorem Sound.log_streams_length (h : l.Sound) (r : Record) :
    (l.log r).streams.length = l.streams.length := by
  cases hr : l.effectiveLevel.passes r.level with
  | false => rw [log_of_not_passes hr]
  | true =>
    rw [h.log_of_passes hr]
    dsimp only
    split
    · exact List.length_modify ..
    · rfl

theorem Sound.log_foreign_length (h : l.Sound) (r : Record) :
    (l.log r).foreign.length = l.foreign.length := by
  cases hr : l.effectiveLevel.passes r.level with
  | false => rw [log_of_not_passes hr]
  | true => rw [h.log_of_passes hr, List.length_map]

theorem log_handlers (l : Logger) (r : Record) : (l.log r).handlers = l.handlers := by
  rw [log]
  split
  · rw [foldl_hand]
  · rfl

theorem Sound.log (h : l.Sound) (r : Record) : (l.log r).Sound where
  own := by rw [log_handlers, log_level, h.log_streams_length, h.own]
  foreign := by rw [log_handlers, h.log_foreign_length, h.foreign]

theorem Sound.perform (h : l.Sound) (step : LogStep) : (l.perform step).Sound := by
  cases step with
  | configure v => exact h.configure v
  | addForeign => exact h.addForeign
  | log r => exact h.log r

theorem after_concat (steps : List LogStep) (step : LogStep) :
    after (steps ++ [step]) = (after steps).perform step := by
  rw [after, List.foldl_append, List.foldl_cons, List.foldl_nil, after]

theorem after_sound (steps : List LogStep) : (after steps).Sound := by
  induction steps using List.reverseRecOn with
  | nil => exact fresh_sound
  | append_singleton steps step ih => exact after_concat steps step ▸ ih.perform step

theorem after_level (steps : List LogStep) : (after steps).level = LogStep.lastLevel? steps := by
  induction steps using List.reverseRecOn with
  | nil => rfl
  | append_singleton steps step ih =>
    rw [LogStep.lastLevel?] at ih ⊢
    rw [after_concat, LogStep.verbosities_concat]
    cases step with
    | configure v => simp [perform, configure, LogStep.verbosity?]
    | addForeign => simpa [perform, addForeign, LogStep.verbosity?] using ih
    | log r => simpa [perform, log_level, LogStep.verbosity?] using ih

theorem after_streams_length (steps : List LogStep) :
    (after steps).streams.length = (LogStep.verbosities steps).length := by
  induction steps using List.reverseRecOn with
  | nil => rfl
  | append_singleton steps step ih =>
    rw [after_concat, LogStep.verbosities_concat]
    cases step with
    | configure v => simpa [perform, configure, LogStep.verbosity?] using ih
    | addForeign => simpa [perform, addForeign, LogStep.verbosity?] using ih
    | log r =>
      rw [perform, (after_sound steps).log_streams_length, ih]
      simp [LogStep.verbosity?]

theorem after_foreign_length (steps : List LogStep) :
    (after steps).foreign.length = LogStep.addedCount steps := by
  induction steps using List.reverseRecOn with
  | nil => rfl
  | append_singleton steps step ih =>
    rw [LogStep.addedCount] at ih ⊢
    rw [after_concat, List.count_append]
    cases step with
    | configure v => simpa [perform, configure] using ih
    | addForeign => simpa [perform, addForeign] using ih
    | log r =>
      rw [perform, (after_sound steps).log_foreign_length, ih]
      simp

theorem Sound.kept (h : l.Sound) {i : Nat} (hi : i + 1 < l.streams.length)
    (steps : List LogStep) : (steps.foldl Logger.perform l).streams[i]? = l.streams[i]? := by
  induction steps generalizing l with
  | nil => rfl
  | cons step steps ih =>
    have hstep : (l.perform step).streams[i]? = l.streams[i]? ∧
        i + 1 < (l.perform step).streams.length := by
      cases step with
      | configure v =>
        have hlength : (l.configure v).streams.length = l.streams.length + 1 :=
          List.length_append
        rw [Logger.perform, hlength]
        exact ⟨List.getElem?_append_left (Nat.lt_of_succ_lt hi), Nat.lt_succ_of_lt hi⟩
      | addForeign => exact ⟨rfl, hi⟩
      | log r =>
        refine ⟨?_, by rwa [Logger.perform, h.log_streams_length]⟩
        rw [Logger.perform]
        cases hr : l.effectiveLevel.passes r.level with
        | false => rw [log_of_not_passes hr]
        | true =>
          rw [h.log_of_passes hr]
          dsimp only
          split
          · exact List.getElem?_modify_ne _ _ (by omega)
          · rfl
    rw [List.foldl_cons, ih (h.perform step) hstep.2, hstep.1]

/-- The newest stream receives the lines of the records that pass its level, up to the next
configuration. -/
theorem Sound.newest (h : l.Sound) {level : Level} (hl : l.level = some level)
    {earlier : List Text} {text : Text} (hs : l.streams = earlier ++ [text])
    (steps : List LogStep) :
    (steps.foldl Logger.perform l).streams[earlier.length]? =
      some (text ++ LogStep.lines (((LogStep.untilConfigured steps).filterMap
        LogStep.record?).filter fun r => level.passes r.level)) := by
  induction steps generalizing l text with
  | nil => simp [hs, LogStep.untilConfigured, LogStep.lines]
  | cons step steps ih =>
    rw [List.foldl_cons]
    cases step with
    | configure v =>
      have hnext : (l.configure v).streams = earlier ++ [text] ++ [[]] := by
        rw [Logger.configure, hs]
      rw [Logger.perform, (h.configure v).kept (by simp [hnext]), hnext]
      simp [LogStep.untilConfigured, LogStep.verbosity?, LogStep.lines]
    | addForeign =>
      rw [Logger.perform, ih h.addForeign hl hs]
      rfl
    | log r =>
      rw [Logger.perform]
      have hforce : l.effectiveLevel = level := by rw [effectiveLevel, hl, Option.getD_some]
      have hlevel : (l.log r).level = some level := by rw [log_level, hl]
      cases hr : level.passes r.level with
      | false =>
        have hsame : (l.log r).streams = earlier ++ [text] := by
          rw [log_of_not_passes (hforce ▸ hr), hs]
        rw [ih (h.log r) hlevel hsame]
        simp [LogStep.untilConfigured, LogStep.verbosity?, LogStep.record?, hr]
      | true =>
        have hadded : (l.log r).streams =
            earlier ++ [text ++ r.consoleLine ++ ['\n']] := by
          rw [h.log_of_passes (hforce ▸ hr), hl, hs]
          simp [modify_concat]
        rw [ih (h.log r) hlevel hadded]
        simp [LogStep.untilConfigured, LogStep.verbosity?, LogStep.record?, hr, LogStep.lines]

theorem Sound.receives (h : l.Sound) (i : Nat) (steps : List LogStep) (hi : i < l.foreign.length) :
    (steps.foldl Logger.perform l).foreign[i]? =
      l.foreign[i]?.map (· ++ LogStep.passing l.effectiveLevel steps) := by
  induction steps generalizing l with
  | nil => simp [LogStep.passing]
  | cons step steps ih =>
    rw [List.foldl_cons]
    cases step with
    | configure v => exact ih (h.configure v) hi
    | addForeign =>
      rw [Logger.perform, ih h.addForeign (by simp [Logger.addForeign]; omega)]
      simp [Logger.addForeign, List.getElem?_append_left hi, LogStep.passing, effectiveLevel]
    | log r =>
      have hforce : (l.log r).effectiveLevel = l.effectiveLevel := by
        rw [effectiveLevel, effectiveLevel, log_level]
      rw [Logger.perform, ih (h.log r) (by rwa [h.log_foreign_length]), hforce, LogStep.passing]
      cases hr : l.effectiveLevel.passes r.level with
      | false =>
        rw [log_of_not_passes hr]
        rfl
      | true =>
        rw [h.log_of_passes hr, List.getElem?_map, Option.map_map]
        simp [Function.comp_def]

/-- After every history the handlers are the foreign ones that were added and one own handler, if
the logger was configured; the stream of each configuration holds the lines of the records that were
logged up to the next one and have at least its level; and each foreign handler has received the
records that were logged since it was added and passed the level then in force. -/
theorem after_received (steps : List LogStep) :
    (after steps).handlers.filter (!·.isOwn) =
      (List.range (LogStep.addedCount steps)).map (fun i => ⟨.foreign i, .debug⟩) ∧
    (after steps).handlers.filter (·.isOwn) = (LogStep.lastLevel? steps).toList.map (fun level =>
      ⟨.stream ((LogStep.verbosities steps).length - 1), level⟩) ∧
    (after steps).handlerCount =
      LogStep.addedCount steps + (if LogStep.verbosities steps = [] then 0 else 1) ∧
    (after steps).streams.length = (LogStep.verbosities steps).length ∧
    (∀ before v later, steps = before ++ .configure v :: later →
      (after steps).streams[(LogStep.verbosities before).length]? =
        some (LogStep.lines (((LogStep.untilConfigured later).filterMap LogStep.record?).filter
          fun r => (Level.ofVerbosity v).passes r.level))) ∧
    (after steps).foreign.length = LogStep.addedCount steps ∧
    ∀ before later, steps = before ++ .addForeign :: later →
      (after steps).foreign[LogStep.addedCount before]? =
        some (LogStep.passing ((LogStep.lastLevel? before).getD .warning) later) := by
  have hsound := after_sound steps
  have hown := hsound.own
  have hforeign := hsound.foreign
  rw [after_level, after_streams_length] at hown
  rw [after_foreign_length] at hforeign
  refine ⟨hforeign, hown, ?count, after_streams_length steps, ?streams, after_foreign_length steps,
    ?received⟩
  case count =>
    have hlengths := List.length_eq_length_filter_add (l := (after steps).handlers) (·.isOwn)
    rw [hown, hforeign, List.length_map, List.length_map, List.length_range] at hlengths
    rw [handlerCount, hlengths, Nat.add_comm]
    congr 1
    rw [LogStep.lastLevel?]
    cases LogStep.verbosities steps using List.reverseRecOn <;> simp
  case streams =>
    rintro before v later rfl
    have hstreams : ((after before).configure v).streams = (after before).streams ++ [[]] := rfl
    have hnewest := ((after_sound before).configure v).newest rfl hstreams later
    rw [after_streams_length, List.nil_append] at hnewest
    rw [after, List.foldl_append]
    exact hnewest
  case received =>
    rintro before later rfl
    have hadded : (after before).addForeign.foreign = (after before).foreign ++ [[]] := rfl
    have hreceived := (after_sound before).addForeign.receives (LogStep.addedCount before) later
      (by rw [hadded, List.length_append, after_foreign_length]; exact Nat.lt_succ_self _)
    have hempty : (after before).addForeign.foreign[LogStep.addedCount before]? = some [] := by
      rw [hadded, ← after_foreign_length, List.getElem?_concat_length]
    have hlevel : (after before).addForeign.effectiveLevel =
        (LogStep.lastLevel? before).getD .warning := by
      rw [← after_level]
      rfl
    rw [hempty, hlevel, Option.map_some, List.nil_append] at hreceived
    rw [after, List.foldl_append]
    exact hreceived

/-- A logger that is configured twice, with a foreign handler added in between. -/
def reconfigured : List LogStep :=
  [.log ⟨.critical, [], "zero".toList⟩, .configure 1,
    .log ⟨.info, "driver.emit".toList, "one".toList⟩, .addForeign,
    .log ⟨.debug, [], "two".toList⟩, .configure (-1), .log ⟨.warning, [], "three".toList⟩,
    .log ⟨.error, [], "four".toList⟩]

theorem after_received_reconfigured :
    reconfigured = reconfigured.take 1 ++ .configure 1 :: reconfigured.drop 2 ∧
    (after reconfigured).streams[0]? = some "INFO | slicejson.driver.emit | one\n".toList ∧
    reconfigured = reconfigured.take 3 ++ .addForeign :: reconfigured.drop 4 ∧
    (after reconfigured).foreign[0]? = some [⟨.error, [], "four".toList⟩] := by
  obtain ⟨-, -, -, -, hstreams, -, hreceived⟩ := after_received reconfigured
  have hstream := hstreams (reconfigured.take 1) 1 (reconfigured.drop 2) rfl
  have hforeign := hreceived (reconfigured.take 3) (reconfigured.drop 4) rfl
  refine ⟨rfl, hstream.trans ?_, rfl, hforeign.trans ?_⟩
  · decide
  · decide

end Logger

end SliceIdl
