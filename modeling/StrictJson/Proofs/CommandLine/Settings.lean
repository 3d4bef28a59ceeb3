import StrictJson.CommandLine.Arguments
import StrictJson.Proofs.Traversal

/-!
# Settings

The arguments are applied one after the other. What comes of it does not need that order: each
setting is that of the last of its occurrences, and flags are set if they occur at all.
-/

namespace StrictJson.CommandLine

variable {α : Type}

/-! ## Occurrences -/

/-- An option as it occurs among the arguments, and what it is given there. -/
structure Occurrence where
  name : Name
  given : Option (Given String)

namespace Occurrence

/-- What an option of the given name is given. -/
def givenTo (name : Name) (o : Occurrence) : Option (Given String) :=
  if o.name = name then o.given else none

/-- What the two options say about pretty output. -/
def pretty? (o : Occurrence) : Option Bool :=
  match o.name with
  | .pretty => some true
  | .noPretty => some false
  | _ => none

/-- The indentation that is given, if this is the option for it. -/
def indent? (o : Occurrence) : Option (Given Int) :=
  match o.givenTo .indent with
  | some .nothing => some .nothing
  | some (.value v) => (intOfText? 10 v.toList).map .value
  | none => none

/-- What the last of the occurrences says that says anything. -/
def last (f : Occurrence → Option α) (os : List Occurrence) : Option α :=
  (os.filterMap f).getLast?

/-- The first occurrence counts if no other one says anything. -/
theorem last_cons (f : Occurrence → Option α) (o : Occurrence) (os : List Occurrence) :
    last f (o :: os) = (last f os).or (f o) := by
  unfold last
  cases h : f o with
  | none => rw [List.filterMap_cons_none h, Option.or_none]
  | some a =>
    rw [List.filterMap_cons_some h, List.getLast?_cons]
    cases (os.filterMap f).getLast? <;> rfl

/-- A single occurrence is the last. -/
theorem last_singleton (f : Occurrence → Option α) (o : Occurrence) : last f [o] = f o := by
  rw [last_cons, last, List.filterMap_nil, List.getLast?_nil, Option.none_or]

end Occurrence

open Occurrence (last givenTo)

/-- The options among the arguments, in their order. An option that needs a value takes that behind
an equals sign, or else the next argument. -/
def occurrences : List Word → List Occurrence
  | [] => []
  | .option name (some v) :: r => ⟨name, some (Arguments.givenBehindEquals v)⟩ :: occurrences r
  | .option name none :: .value v :: r =>
    ⟨name, if name.takesValue then some (.value v) else none⟩ :: occurrences r
  | .option name none :: r => ⟨name, none⟩ :: occurrences r
  | _ :: r => occurrences r

namespace Arguments

variable {a a' : Arguments} {name : Name} {ws : List Word}

/-- The settings after some options more. -/
def after (a : Arguments) (os : List Occurrence) : Arguments where
  input := (last (givenTo .input) os).or a.input
  output := (last (givenTo .output) os).or a.output
  config := (last (givenTo .config) os).or a.config
  pretty := (last Occurrence.pretty? os).or a.pretty
  indent := (last Occurrence.indent? os).or a.indent
  check := os.any (·.name = .check) || a.check
  verbose := os.any (·.name = .verbose) || a.verbose

/-- Nothing is set by no options. -/
theorem after_nil (a : Arguments) : a.after [] = a := by
  cases a
  simp [after, last]

/-- Options are set one after the other. -/
theorem after_cons (a : Arguments) (o : Occurrence) (os : List Occurrence) :
    a.after (o :: os) = (a.after [o]).after os := by
  simp only [after, Occurrence.last_cons, List.any_cons, Option.or_assoc, Bool.or_assoc]
  simp [last, Bool.or_left_comm]

/-- An option that is given a value, or nothing, is set. -/
theorem after_of_setGiven {g : Given String} (h : a.setGiven name g = .ok a') :
    a' = a.after [⟨name, some g⟩] := by
  cases a
  cases name <;> simp only [setGiven, reduceCtorEq] at h
  case indent =>
    cases g with
    | nothing =>
      cases h
      simp [after, Occurrence.last_singleton, givenTo, Occurrence.pretty?, Occurrence.indent?]
    | value v =>
      simp only at h
      split at h
      · rename_i n hn
        cases h
        simp [after, Occurrence.last_singleton, givenTo, Occurrence.pretty?, Occurrence.indent?, hn]
      · cases h
  all_goals
    cases h
    simp [after, Occurrence.last_singleton, givenTo, Occurrence.pretty?, Occurrence.indent?]

/-- An option without a value is set. -/
theorem after_of_setFlag (h : a.setFlag name = .ok a') : a' = a.after [⟨name, none⟩] := by
  cases a
  cases name <;> simp only [setFlag, reduceCtorEq] at h
  all_goals
    cases h
    simp [after, Occurrence.last_singleton, givenTo, Occurrence.pretty?, Occurrence.indent?]

/-- Arguments that are accepted make the settings of their options. -/
theorem after_of_ofWords {hasStrays : Bool} (h : ofWords a hasStrays ws = .ok a') :
    a' = a.after (occurrences ws) := by
  fun_induction ofWords a hasStrays ws with
  | case1 => cases h
  | case2 =>
    cases h
    rw [occurrences, after_nil]
  | case3 a hasStrays name v r hvalue ih =>
    obtain ⟨a₁, h₁, h⟩ := bind_eq_ok_iff.1 h
    rw [ih a₁ h, after_of_setGiven h₁, occurrences, ← after_cons]
  | case4 => cases h
  | case5 a hasStrays name v r hvalue ih =>
    obtain ⟨a₁, h₁, h⟩ := bind_eq_ok_iff.1 h
    rw [ih a₁ h, after_of_setGiven h₁, occurrences, hvalue, if_pos rfl, ← after_cons]
  | case6 a hasStrays name v r hvalue ih =>
    obtain ⟨a₁, h₁, h⟩ := bind_eq_ok_iff.1 h
    rw [ih a₁ h, after_of_setFlag h₁, occurrences, if_neg hvalue, ← after_cons]
  | case7 => cases h
  | case8 a hasStrays name r hbehind hvalue ih =>
    obtain ⟨a₁, h₁, h⟩ := bind_eq_ok_iff.1 h
    rw [ih a₁ h, after_of_setFlag h₁, occurrences, ← after_cons]
    exact hbehind
  | case9 a hasStrays w r _ _ _ ih =>
    rw [ih h, occurrences] <;> assumption

/-- The settings of options that occur in the given order. -/
def lastOf (os : List Occurrence) : Arguments where
  input := last (givenTo .input) os
  output := last (givenTo .output) os
  config := last (givenTo .config) os
  pretty := last Occurrence.pretty? os
  indent := last Occurrence.indent? os
  check := os.any (·.name = .check)
  verbose := os.any (·.name = .verbose)

/-- Arguments are accepted only as the settings of the last occurrences of their options. -/
theorem lastOf_of_parse {args : List String} (h : parse args = .ok a) :
    ∃ ws, classifyAll args = .ok ws ∧ a = lastOf (occurrences ws) := by
  obtain ⟨ws, hws, h⟩ := bind_eq_ok_iff.1 h
  refine ⟨ws, hws, ?_⟩
  rw [after_of_ofWords h]
  simp [after, lastOf]

end Arguments

end StrictJson.CommandLine
