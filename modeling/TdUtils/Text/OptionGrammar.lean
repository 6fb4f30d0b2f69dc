import Mathlib.Data.Int.Notation
import TdUtils.Lib.Bytes

/-!
# Text.OptionGrammar — what a command line says

The options of a parser, and the getopt grammar of the arguments that follow the name of the program: which options they
give with which parameters, which of them are no options, and where and why they stop to be a command line.
-/

namespace TdUtils

open Lib Bytes

/-- A string of C, without the zero that ends it. -/
structure CString where
  bytes : List UInt8
  proper : 0 ∉ bytes
deriving DecidableEq

/-- `arg[i]`, at the zero behind the string at most. -/
def CString.at_ (arg : CString) (i : ℕ) : UInt8 := arg.bytes.getD i 0

instance : Inhabited CString := ⟨⟨[], List.not_mem_nil⟩⟩

namespace OptionParser

/-- An error, by its code and its message. -/
structure Status where
  code : ℤ
  message : List UInt8
deriving DecidableEq

/-- What may change the state of the program, and returns a value or an error. -/
abbrev Call (σ α : Type) := ExceptT Status (StateM σ) α

inductive OptionType
  | noArg
  | arg
deriving DecidableEq

/-- `OptionParser::Option`. -/
structure Opt (σ : Type) where
  type : OptionType
  /-- 0 without a short key, as `longKey` is empty without a long one. -/
  shortKey : UInt8
  longKey : List UInt8
  argCallback : List UInt8 → Call σ Unit

/-- An option as it stands in the command line. -/
inductive Key
  | short (c : UInt8)
  | long (name : List UInt8)
deriving DecidableEq

/-- What is wrong with a command line. -/
inductive Problem
  | unrecognized (key : Key)
  | mustNotHave (key : Key)
  | mustHave (key : Key)
  | unexpectedNonOptions
  | tooMuchNonOptions
  | tooFewNonOptions
deriving DecidableEq

/-- What a command line says, in its order. -/
inductive Event (σ : Type)
  | call (option : Opt σ) (parameter : List UInt8)
  | nonOption (arg : CString)

/-- The calls of the callbacks. -/
def calls {σ : Type} (events : List (Event σ)) : List (Opt σ × List UInt8) :=
  events.filterMap fun
    | .call option parameter => some (option, parameter)
    | .nonOption _ => none

def nonOptions {σ : Type} (events : List (Event σ)) : List CString :=
  events.filterMap fun
    | .call _ _ => none
    | .nonOption arg => some arg

def dash : UInt8 := ch '-'

def equals : UInt8 := ch '='

section Grammar

variable {σ : Type} (options : List (Opt σ))

/-- A group of short options, with the arguments behind it: what it says, what is wrong, and the arguments that are left. -/
inductive Group : List UInt8 → List CString → List (Event σ) → Option Problem → List CString → Prop
  | done {rest} : Group [] rest [] none rest
  | noArg {c flags rest events problem left option} : option ∈ options → option.shortKey = c → option.type = .noArg →
      Group flags rest events problem left → Group (c :: flags) rest (.call option [] :: events) problem left
  | argInside {c flags rest option} : option ∈ options → option.shortKey = c → option.type = .arg → flags ≠ [] →
      Group (c :: flags) rest [.call option flags] none rest
  | argNext {c value rest option} : option ∈ options → option.shortKey = c → option.type = .arg →
      Group [c] (value :: rest) [.call option value.bytes] none rest
  | missing {c option} : option ∈ options → option.shortKey = c → option.type = .arg →
      Group [c] [] [] (some (.mustHave (.short c))) []
  | unknown {c flags rest} : (∀ option ∈ options, option.shortKey ≠ c) →
      Group (c :: flags) rest [] (some (.unrecognized (.short c))) rest

/-- The option has the name, which is not empty and ends in front of an equals sign. -/
structure Named (option : Opt σ) (name : List UInt8) : Prop where
  mem : option ∈ options
  key : option.longKey = name
  nonempty : name ≠ []
  noEquals : equals ∉ name

/-- What stands behind the two dashes of a long option, with the arguments behind it. -/
inductive Long : List UInt8 → List CString → List (Event σ) → Option Problem → List CString → Prop
  | noArg {name rest option} : Named options option name → option.type = .noArg →
      Long name rest [.call option []] none rest
  | argInside {name value rest option} : Named options option name → option.type = .arg →
      Long (name ++ equals :: value) rest [.call option value] none rest
  | argNext {name value rest option} : Named options option name → option.type = .arg →
      Long name (value :: rest) [.call option value.bytes] none rest
  | missing {name option} : Named options option name → option.type = .arg →
      Long name [] [] (some (.mustHave (.long name))) []
  | unexpected {name value rest option} : Named options option name → option.type = .noArg →
      Long (name ++ equals :: value) rest [] (some (.mustNotHave (.long name))) rest
  | unknown {name rest} : equals ∉ name → (∀ option, ¬ Named options option name) →
      Long name rest [] (some (.unrecognized (.long name))) rest
  | unknownEqual {name value rest} : equals ∉ name → (∀ option, ¬ Named options option name) →
      Long (name ++ equals :: value) rest [] (some (.unrecognized (.long name))) rest

/-- One argument with options, with the arguments behind it. -/
inductive Argument : CString → List CString → List (Event σ) → Option Problem → List CString → Prop
  | long {arg name rest events problem left} : arg.bytes = dash :: dash :: name → name ≠ [] →
      Long options name rest events problem left → Argument arg rest events problem left
  | group {arg c flags rest events problem left} : arg.bytes = dash :: c :: flags → c ≠ dash →
      Group options (c :: flags) rest events problem left → Argument arg rest events problem left

/-- The arguments of a command line. -/
inductive Reads : List CString → List (Event σ) → Option Problem → Prop
  | done : Reads [] [] none
  | nonOption {arg rest events problem} : arg.bytes.head? ≠ some dash ∨ arg.bytes = [dash] →
      Reads rest events problem → Reads (arg :: rest) (.nonOption arg :: events) problem
  | dashes {arg rest} : arg.bytes = [dash, dash] → Reads (arg :: rest) (rest.map .nonOption) none
  | options {arg rest events left events' problem} : Argument options arg rest events none left →
      Reads left events' problem → Reads (arg :: rest) (events ++ events') problem
  | problem {arg rest events problem left} : Argument options arg rest events (some problem) left →
      Reads (arg :: rest) events (some problem)

end Grammar

/-! ### Every command line can be read -/

section Total

variable {σ : Type} (options : List (Opt σ))

theorem Group.total : ∀ (flags : List UInt8) (rest : List CString),
    ∃ events problem left, Group options flags rest events problem left ∧ left.length ≤ rest.length
  | [], rest => ⟨_, _, _, .done, Nat.le_refl _⟩
  | c :: flags, rest => by
    by_cases hknown : ∃ option ∈ options, option.shortKey = c
    · obtain ⟨option, hmem, hkey⟩ := hknown
      rcases htype : option.type with - | -
      · obtain ⟨events, problem, left, hgroup, hlen⟩ := Group.total flags rest
        exact ⟨_, _, _, .noArg hmem hkey htype hgroup, hlen⟩
      · rcases flags with - | ⟨d, flags⟩
        · rcases rest with - | ⟨value, rest⟩
          · exact ⟨_, _, _, .missing hmem hkey htype, Nat.le_refl _⟩
          · exact ⟨_, _, _, .argNext hmem hkey htype, Nat.le_succ _⟩
        · exact ⟨_, _, _, .argInside hmem hkey htype (List.cons_ne_nil _ _), Nat.le_refl _⟩
    · push Not at hknown
      exact ⟨_, _, _, .unknown hknown, Nat.le_refl _⟩

theorem Long.total (text : List UInt8) (rest : List CString) :
    ∃ events problem left, Long options text rest events problem left ∧ left.length ≤ rest.length := by
  by_cases hequals : equals ∈ text
  · obtain ⟨name, value, rfl, hname⟩ := List.eq_append_cons_of_mem hequals
    by_cases hknown : ∃ option, Named options option name
    · obtain ⟨option, hnamed⟩ := hknown
      rcases htype : option.type with - | -
      · exact ⟨_, _, _, .unexpected hnamed htype, Nat.le_refl _⟩
      · exact ⟨_, _, _, .argInside hnamed htype, Nat.le_refl _⟩
    · exact ⟨_, _, _, .unknownEqual hname (not_exists.mp hknown), Nat.le_refl _⟩
  · by_cases hknown : ∃ option, Named options option text
    · obtain ⟨option, hnamed⟩ := hknown
      rcases htype : option.type with - | -
      · exact ⟨_, _, _, .noArg hnamed htype, Nat.le_refl _⟩
      · rcases rest with - | ⟨value, rest⟩
        · exact ⟨_, _, _, .missing hnamed htype, Nat.le_refl _⟩
        · exact ⟨_, _, _, .argNext hnamed htype, Nat.le_succ _⟩
    · exact ⟨_, _, _, .unknown hequals (not_exists.mp hknown), Nat.le_refl _⟩

/-- The four kinds of arguments. -/
theorem CString.kinds (arg : CString) : (arg.bytes.head? ≠ some dash ∨ arg.bytes = [dash]) ∨ arg.bytes = [dash, dash] ∨
    (∃ name, arg.bytes = dash :: dash :: name ∧ name ≠ []) ∨ ∃ c flags, arg.bytes = dash :: c :: flags ∧ c ≠ dash := by
  rcases arg.bytes with - | ⟨b, - | ⟨c, flags⟩⟩
  · exact .inl (.inl (by simp))
  · by_cases hb : b = dash
    · exact .inl (.inr (by rw [hb]))
    · exact .inl (.inl (by simpa using hb))
  · by_cases hb : b = dash
    · by_cases hc : c = dash
      · rcases flags with - | ⟨d, flags⟩
        · exact .inr (.inl (by rw [hb, hc]))
        · exact .inr (.inr (.inl ⟨d :: flags, by rw [hb, hc], List.cons_ne_nil _ _⟩))
      · exact .inr (.inr (.inr ⟨c, flags, by rw [hb], hc⟩))
    · exact .inl (.inl (by simpa using hb))

/-- The grammar reads every command line. -/
theorem Reads.total : ∀ (n : ℕ) (args : List CString), args.length ≤ n → ∃ events problem, Reads options args events problem
  | _, [], _ => ⟨_, _, .done⟩
  | n + 1, arg :: rest, hlen => by
    have hrest : rest.length ≤ n := Nat.le_of_succ_le_succ hlen
    have hargument : ∀ {events problem left}, Argument options arg rest events problem left →
        left.length ≤ rest.length → ∃ events problem, Reads options (arg :: rest) events problem := by
      intro events problem left harg hleft
      rcases problem with - | problem
      · obtain ⟨events', problem, hreads⟩ := Reads.total n left (by omega)
        exact ⟨_, _, .options harg hreads⟩
      · exact ⟨_, _, .problem harg⟩
    rcases CString.kinds arg with hnon | hdashes | ⟨name, harg, hname⟩ | ⟨c, flags, harg, hc⟩
    · obtain ⟨events, problem, hreads⟩ := Reads.total n rest hrest
      exact ⟨_, _, .nonOption hnon hreads⟩
    · exact ⟨_, _, .dashes hdashes⟩
    · obtain ⟨events, problem, left, hlong, hleft⟩ := Long.total options name rest
      exact hargument (.long harg hname hlong) hleft
    · obtain ⟨events, problem, left, hgroup, hleft⟩ := Group.total options (c :: flags) rest
      exact hargument (.group harg hc hgroup) hleft

end Total

/-! ### Duplicates -/

section Duplicates

variable {σ : Type} {options : List (Opt σ)}

/-- The condition under which `add_option` logs that an option is a duplicate of another. -/
def Clash (option other : Opt σ) : Prop :=
  (option.shortKey ≠ 0 ∧ other.shortKey = option.shortKey) ∨ (option.longKey ≠ [] ∧ option.longKey = other.longKey)

/-- No option that was added was a duplicate. -/
def Distinct (options : List (Opt σ)) : Prop := options.Pairwise fun other option => ¬ Clash option other

theorem Distinct.short (h : Distinct options) :
    options.Pairwise fun other option => other.shortKey = option.shortKey → option.shortKey = 0 :=
  h.imp fun hclash hkey => by_contra fun hne => hclash (.inl ⟨hne, hkey⟩)

theorem Distinct.long (h : Distinct options) :
    options.Pairwise fun other option => other.longKey = option.longKey → option.longKey = [] :=
  h.imp fun hclash hkey => by_contra fun hne => hclash (.inr ⟨hne, hkey.symm⟩)

end Duplicates

end OptionParser

end TdUtils
