import TdUtils.Text.OptionGrammar
import TdUtils.Text.StringBuilder

/-!
# Text.OptionParser — `OptionParser::run`

Two positions go over the command line, one over the arguments and one over the short options of a group, and both are
advanced where a parameter is taken.  What they find is what the grammar reads.
-/

namespace TdUtils

open Lib Bytes

structure OptionParser (σ : Type) where
  options : List (OptionParser.Opt σ)
  checks : List (OptionParser.Call σ Unit)

namespace OptionParser

/-! ### Errors -/

def Key.piece : Key → StringBuilder.Piece
  | .short c => .char c
  | .long name => .slice name

/-- What is said of an option; nothing goes wrong in `PSLICE()`. -/
def optionMessage (key : Key) (what : List UInt8) : List UInt8 :=
  ((StringBuilder.pslice 0 [.slice (chs "Option ".toList), key.piece, .slice what]).toOption).getD []

def Problem.message : Problem → List UInt8
  | .unrecognized key => optionMessage key (chs " was unrecognized".toList)
  | .mustNotHave key => optionMessage key (chs " must not have argument".toList)
  | .mustHave key => optionMessage key (chs " must have argument".toList)
  | .unexpectedNonOptions => chs "Unexpected non-option parameters specified".toList
  | .tooMuchNonOptions => chs "Too much non-option parameters specified".toList
  | .tooFewNonOptions => chs "Too few non-option parameters specified".toList

/-- `return Status::Error(…)`. -/
def fail {σ α : Type} (problem : Problem) : Call σ α := throw ⟨0, problem.message⟩

/-- The message names the option as it stands in the command line, if there is room for it. -/
theorem optionMessage_eq (key : Key) (what : List UInt8)
    (h : key.piece.text.length + what.length + 37 ≤ StringBuilder.loggerBufferSize) :
    optionMessage key what = chs "Option ".toList ++ key.piece.text ++ what := by
  have htext : StringBuilder.text [.slice (chs "Option ".toList), key.piece, .slice what] =
      chs "Option ".toList ++ key.piece.text ++ what := by
    simp only [StringBuilder.text_cons, StringBuilder.Piece.text, List.append_assoc]
    simp [StringBuilder.text]
  have hseven : (chs "Option ".toList).length = 7 := rfl
  have hfits : StringBuilder.kept (StringBuilder.loggerBufferSize - 30) 0
      [.slice (chs "Option ".toList), key.piece, .slice what] = chs "Option ".toList ++ key.piece.text ++ what := by
    rw [StringBuilder.kept_of_le, htext]
    rw [htext, List.length_append, List.length_append, hseven]
    omega
  rw [optionMessage, StringBuilder.pslice_eq, hfits]
  rfl

/-! ### The parser -/

section Run

variable {σ : Type}

/-- An option is put into one of the maps if it has a key of that kind. -/
def put {κ : Type} [DecidableEq κ] (key : Opt σ → κ) (nothing : κ) (map : κ → Option (Opt σ)) (opt : Opt σ) :
    κ → Option (Opt σ) :=
  if key opt ≠ nothing then Function.update map (key opt) (some opt) else map

def shortOptions (options : List (Opt σ)) : UInt8 → Option (Opt σ) := options.foldl (put Opt.shortKey 0) fun _ => none

def longOptions (options : List (Opt σ)) : List UInt8 → Option (Opt σ) := options.foldl (put Opt.longKey []) fun _ => none

/-- A long option at `arg_pos`; the position of its last argument. -/
def longOption (options : List (Opt σ)) (argv : List CString) (arg : CString) (argPos : ℕ) : Call σ ℕ :=
  let longArg := arg.bytes.drop 2
  let equalPos := longArg.findIdx? (· = equals)
  let name := match equalPos with
    | some pos => longArg.take pos
    | none => longArg
  match longOptions options name with
  | none => fail (.unrecognized (.long name))
  | some option =>
    match option.type, equalPos with
    | .noArg, some _ => fail (.mustNotHave (.long name))
    | .noArg, none => do
      option.argCallback []
      return argPos
    | .arg, some pos => do
      option.argCallback (longArg.drop (pos + 1))
      return argPos
    | .arg, none =>
      if argPos + 1 = argv.length then fail (.mustHave (.long name))
      else do
        option.argCallback (argv.getD (argPos + 1) default).bytes
        return argPos + 1

/-- The loop over a group of short options, from `opt_pos` on; the position of the last argument. -/
def shortGroup (options : List (Opt σ)) (argv : List CString) (arg : CString) : ℕ → ℕ → ℕ → Call σ ℕ
  | 0, _, argPos => return argPos
  | fuel + 1, optPos, argPos =>
    if arg.at_ optPos = 0 then return argPos
    else
      match shortOptions options (arg.at_ optPos) with
      | none => fail (.unrecognized (.short (arg.at_ optPos)))
      | some option =>
        match option.type with
        | .noArg => do
          option.argCallback []
          shortGroup options argv arg fuel (optPos + 1) argPos
        | .arg =>
          if arg.at_ (optPos + 1) = 0 then
            if argPos + 1 = argv.length then fail (.mustHave (.short (arg.at_ optPos)))
            else do
              option.argCallback (argv.getD (argPos + 1) default).bytes
              shortGroup options argv arg fuel (optPos + 1) (argPos + 1)
          else do
            let parameter := arg.bytes.drop (optPos + 1)
            option.argCallback parameter
            shortGroup options argv arg fuel (optPos + parameter.length + 1) argPos

/-- The loop over the arguments, from `arg_pos` on; the non-options. -/
def arguments (options : List (Opt σ)) (argv : List CString) : ℕ → ℕ → List CString → Call σ (List CString)
  | 0, _, nonOptions => return nonOptions
  | fuel + 1, argPos, nonOptions =>
    if argPos < argv.length then
      let arg := argv.getD argPos default
      if arg.at_ 0 ≠ dash ∨ arg.at_ 1 = 0 then arguments options argv fuel (argPos + 1) (nonOptions ++ [arg])
      else if arg.at_ 1 = dash ∧ arg.at_ 2 = 0 then return nonOptions ++ argv.drop (argPos + 1)
      else do
        let argPos ←
          if arg.at_ 1 = dash then longOption options argv arg argPos
          else shortGroup options argv arg arg.bytes.length 1 argPos
        arguments options argv fuel (argPos + 1) nonOptions
    else return nonOptions

/-- What is wrong with the number of the non-options; any will do when `expected` is negative. -/
def countProblem (expected : ℤ) (count : ℕ) : Option Problem :=
  if 0 ≤ expected ∧ count ≠ expected.toNat then
    if expected = 0 then some .unexpectedNonOptions
    else if expected.toNat < count then some .tooMuchNonOptions
    else some .tooFewNonOptions
  else none

def run (parser : OptionParser σ) (argv : List CString) (expectedNonOptionCount : ℤ) : Call σ (List CString) := do
  let nonOptions ← arguments parser.options argv argv.length 1 []
  match countProblem expectedNonOptionCount nonOptions.length with
  | some problem => fail problem
  | none =>
    parser.checks.forM id
    return nonOptions

end Run

/-! ### The maps of the options -/

section Tables

variable {σ κ : Type} [DecidableEq κ]

theorem foldl_put_kept (key : Opt σ → κ) (nothing : κ) {k : κ} : ∀ {options : List (Opt σ)} {map : κ → Option (Opt σ)},
    (∀ option ∈ options, key option = k → k = nothing) → options.foldl (put key nothing) map k = map k
  | [], _, _ => rfl
  | opt :: options, map, hunknown => by
    rw [List.foldl_cons, foldl_put_kept key nothing fun other hother => hunknown other (List.mem_cons_of_mem _ hother), put]
    split_ifs with hkey
    · refine Function.update_of_ne (fun hsame => hkey ?_) _ _
      rw [← hsame]
      exact hunknown opt List.mem_cons_self hsame.symm
    · rfl

theorem foldl_put_found {key : Opt σ → κ} {nothing : κ} {option : Opt σ} (hne : key option ≠ nothing) :
    ∀ {options : List (Opt σ)} {map : κ → Option (Opt σ)},
      options.Pairwise (fun other option => key other = key option → key option = nothing) → option ∈ options →
        options.foldl (put key nothing) map (key option) = some option
  | opt :: options, map, hdistinct, hmem => by
    obtain ⟨hfirst, hrest⟩ := List.pairwise_cons.mp hdistinct
    rw [List.foldl_cons]
    rcases List.mem_cons.mp hmem with rfl | hmem
    · rw [foldl_put_kept key nothing fun other hother hsame => hsame ▸ hfirst other hother hsame.symm, put, if_pos hne,
        Function.update_self]
    · exact foldl_put_found hne hrest hmem

variable {options : List (Opt σ)} {option : Opt σ} {c : UInt8} {name : List UInt8}

theorem shortOptions_some (h : Distinct options) (hc : c ≠ 0) (hmem : option ∈ options) (hkey : option.shortKey = c) :
    shortOptions options c = some option := by
  subst hkey
  exact foldl_put_found hc h.short hmem

theorem shortOptions_none (hunknown : ∀ option ∈ options, option.shortKey ≠ c) : shortOptions options c = none :=
  foldl_put_kept Opt.shortKey 0 fun option hmem hkey => absurd hkey (hunknown option hmem)

theorem longOptions_some (h : Distinct options) (hnamed : Named options option name) :
    longOptions options name = some option := by
  obtain ⟨hmem, rfl, hne, -⟩ := hnamed
  exact foldl_put_found hne h.long hmem

theorem longOptions_none (hname : equals ∉ name) (hunknown : ∀ option, ¬ Named options option name) :
    longOptions options name = none :=
  foldl_put_kept Opt.longKey [] fun option hmem hkey =>
    by_contra fun hne => hunknown option ⟨hmem, hkey, hne, hname⟩

end Tables

/-! ### What the loops do -/

section Loops

variable {σ : Type} {options : List (Opt σ)} {argv rest left : List CString} {arg : CString} {argPos : ℕ}
  {events : List (Event σ)} {problem : Option Problem}

/-- The callbacks are called in the order of the command line, up to the first error. -/
def performs (calls : List (Opt σ × List UInt8)) : Call σ Unit := calls.forM fun call => call.1.argCallback call.2

theorem performs_append (before after : List (Opt σ × List UInt8)) :
    performs (before ++ after) = (do performs before; performs after) := List.forM_append

/-- What an argument does: its callbacks are called, and either something is wrong then, or the position is the last one
in front of what is left. -/
def Takes (argv : List CString) (events : List (Event σ)) (problem : Option Problem) (left : List CString)
    (call : Call σ ℕ) : Prop :=
  match problem with
  | some problem => call = (do performs (calls events); fail problem)
  | none => ∃ argPos < argv.length, argv.drop (argPos + 1) = left ∧ call = (do performs (calls events); return argPos)

theorem performs_nil {α : Type} (f : Call σ α) : (do performs (calls ([] : List (Event σ))); f) = f := rfl

theorem performs_call {α : Type} (option : Opt σ) (parameter : List UInt8) (rest : List (Event σ)) (f : Call σ α) :
    (do performs (calls (.call option parameter :: rest)); f) =
      (do option.argCallback parameter; performs (calls rest); f) := by
  change ((option.argCallback parameter >>= fun _ => performs (calls rest)) >>= fun _ => f) = _
  rw [bind_assoc]

/-- The argument at a position that is not the end. -/
theorem argument_at {value : CString} {pos : ℕ} (hrest : argv.drop pos = value :: rest) :
    pos < argv.length ∧ argv.getD pos default = value ∧ argv.drop (pos + 1) = rest := by
  have hlen := congrArg List.length hrest
  rw [List.length_drop, List.length_cons] at hlen
  have hlt : pos < argv.length := by omega
  rw [List.drop_eq_getElem_cons hlt] at hrest
  obtain ⟨hvalue, hleft⟩ := List.cons.inj hrest
  exact ⟨hlt, by rw [List.getD_eq_getElem?_getD, List.getElem?_eq_getElem hlt, hvalue]; rfl, hleft⟩

theorem Takes.cons {call : Call σ ℕ} (h : Takes argv events problem left call) (option : Opt σ) (parameter : List UInt8) :
    Takes argv (.call option parameter :: events) problem left (do option.argCallback parameter; call) := by
  cases problem with
  | none =>
    obtain ⟨argPos, hpos, hleft, rfl⟩ := h
    exact ⟨argPos, hpos, hleft, by rw [performs_call]⟩
  | some problem =>
    obtain rfl : call = _ := h
    change _ = (do performs _; fail problem)
    rw [performs_call]

theorem findIdx?_name {name : List UInt8} (hname : equals ∉ name) : name.findIdx? (· = equals) = none := by
  rw [List.findIdx?_eq_none_iff]
  intro b hb
  simpa using fun h : b = equals => hname (h ▸ hb)

theorem findIdx?_equals {name : List UInt8} (hname : equals ∉ name) (value : List UInt8) :
    (name ++ equals :: value).findIdx? (· = equals) = some name.length := by
  rw [List.findIdx?_append, findIdx?_name hname]
  simp [List.findIdx?_cons]

theorem drop_equals (name value : List UInt8) : (name ++ equals :: value).drop (name.length + 1) = value := by
  rw [← List.drop_drop, List.drop_left]
  rfl

theorem longOption_takes (h : Distinct options) {text : List UInt8} (htext : arg.bytes.drop 2 = text)
    (hpos : argPos < argv.length) (hrest : argv.drop (argPos + 1) = rest)
    (hlong : Long options text rest events problem left) :
    Takes argv events problem left (longOption options argv arg argPos) := by
  have hlast : argPos + 1 = argv.length ↔ rest = [] := by
    rw [← hrest, List.drop_eq_nil_iff]
    omega
  cases hlong with
  | noArg hnamed htype =>
    simp only [longOption, htext, findIdx?_name hnamed.noEquals, longOptions_some h hnamed, htype]
    exact ⟨argPos, hpos, hrest, by rw [performs_call, performs_nil]⟩
  | argInside hnamed htype =>
    simp only [longOption, htext, findIdx?_equals hnamed.noEquals, List.take_left, longOptions_some h hnamed, htype]
    exact ⟨argPos, hpos, hrest, by rw [performs_call, performs_nil, drop_equals]⟩
  | argNext hnamed htype =>
    obtain ⟨hnext, hvalue, hleft⟩ := argument_at hrest
    simp only [longOption, htext, findIdx?_name hnamed.noEquals, longOptions_some h hnamed, htype, if_neg hnext.ne, hvalue]
    exact ⟨argPos + 1, hnext, hleft, by rw [performs_call, performs_nil]⟩
  | missing hnamed htype =>
    simp only [longOption, htext, findIdx?_name hnamed.noEquals, longOptions_some h hnamed, htype, if_pos (hlast.mpr rfl)]
    rfl
  | unexpected hnamed htype =>
    simp only [longOption, htext, findIdx?_equals hnamed.noEquals, List.take_left, longOptions_some h hnamed, htype]
    rfl
  | unknown hname hunknown =>
    simp only [longOption, htext, findIdx?_name hname, longOptions_none hname hunknown]
    rfl
  | unknownEqual hname hunknown =>
    simp only [longOption, htext, findIdx?_equals hname, List.take_left, longOptions_none hname hunknown]
    rfl

theorem CString.at_eq {flags : List UInt8} {i : ℕ} (h : arg.bytes.drop i = flags) : arg.at_ i = flags.headD 0 := by
  rw [CString.at_, ← h, List.headD_eq_head?_getD, List.head?_drop, List.getD_eq_getElem?_getD]

theorem CString.at_end {i : ℕ} (h : arg.bytes.drop i = []) : arg.at_ i = 0 := CString.at_eq h

/-- The next short option of a group, and what is behind it. -/
theorem flag_at {c : UInt8} {flags : List UInt8} {i : ℕ} (h : arg.bytes.drop i = c :: flags) (hflags : 0 ∉ c :: flags) :
    c ≠ 0 ∧ 0 ∉ flags ∧ arg.at_ i = c ∧ arg.bytes.drop (i + 1) = flags := by
  obtain ⟨hc, hrest⟩ := not_or.mp (mt List.mem_cons.mpr hflags)
  refine ⟨Ne.symm hc, hrest, CString.at_eq h, ?_⟩
  rw [← List.drop_drop, h]
  rfl

theorem shortGroup_end {optPos : ℕ} (hdrop : arg.bytes.drop optPos = []) :
    ∀ fuel, shortGroup options argv arg fuel optPos argPos = return argPos
  | 0 => rfl
  | fuel + 1 => by rw [shortGroup, if_pos (CString.at_end hdrop)]

theorem shortGroup_takes (h : Distinct options) {flags : List UInt8} (hgroup : Group options flags rest events problem left)
    (hflags : 0 ∉ flags) : ∀ {fuel optPos argPos : ℕ}, arg.bytes.drop optPos = flags → flags.length ≤ fuel →
      argPos < argv.length → argv.drop (argPos + 1) = rest →
        Takes argv events problem left (shortGroup options argv arg fuel optPos argPos) := by
  induction hgroup with
  | done =>
    intro fuel optPos argPos hdrop hfuel hpos hrest
    exact ⟨argPos, hpos, hrest, shortGroup_end hdrop fuel⟩
  | @noArg c flags rest events problem left option hmem hkey htype _ ih =>
    rintro (- | fuel) optPos argPos hdrop hfuel hpos hrest
    · cases hfuel
    obtain ⟨hc, hflags, hat, hnext⟩ := flag_at hdrop hflags
    have htakes := ih hflags hnext (Nat.le_of_succ_le_succ hfuel) hpos hrest
    have hcall : shortGroup options argv arg (fuel + 1) optPos argPos = (do
        option.argCallback []
        shortGroup options argv arg fuel (optPos + 1) argPos) := by
      simp only [shortGroup, hat, if_neg hc, shortOptions_some h hc hmem hkey, htype]
    rw [hcall]
    exact htakes.cons option []
  | @argInside c flags rest option hmem hkey htype hne =>
    rintro (- | fuel) optPos argPos hdrop hfuel hpos hrest
    · cases hfuel
    obtain ⟨hc, hflags, hat, hnext⟩ := flag_at hdrop hflags
    obtain ⟨d, flags, rfl⟩ := List.exists_cons_of_ne_nil hne
    have hat' : arg.at_ (optPos + 1) = d := CString.at_eq hnext
    have hd : d ≠ 0 := fun hd => hflags (hd ▸ List.mem_cons_self)
    have hend : arg.bytes.drop (optPos + (d :: flags).length + 1) = [] := by
      rw [Nat.add_right_comm, ← List.drop_drop, hnext, List.drop_length]
    simp only [shortGroup, hat, hat', if_neg hc, shortOptions_some h hc hmem hkey, htype, if_neg hd,
      hnext, shortGroup_end hend]
    exact ⟨argPos, hpos, hrest, by rw [performs_call, performs_nil]⟩
  | @argNext c value rest option hmem hkey htype =>
    rintro (- | fuel) optPos argPos hdrop hfuel hpos hrest
    · cases hfuel
    obtain ⟨hc, hflags, hat, hnext⟩ := flag_at hdrop hflags
    obtain ⟨hlt, hvalue, hleft⟩ := argument_at hrest
    simp only [shortGroup, hat, if_neg hc, shortOptions_some h hc hmem hkey, htype,
      if_pos (CString.at_end hnext), if_neg hlt.ne, hvalue, shortGroup_end hnext]
    exact ⟨argPos + 1, hlt, hleft, by rw [performs_call, performs_nil]⟩
  | @missing c option hmem hkey htype =>
    rintro (- | fuel) optPos argPos hdrop hfuel hpos hrest
    · cases hfuel
    obtain ⟨hc, hflags, hat, hnext⟩ := flag_at hdrop hflags
    have hlast : argPos + 1 = argv.length := by
      rw [List.drop_eq_nil_iff] at hrest
      omega
    simp only [shortGroup, hat, if_neg hc, shortOptions_some h hc hmem hkey, htype,
      if_pos (CString.at_end hnext), if_pos hlast]
    rfl
  | @unknown c flags rest hunknown =>
    rintro (- | fuel) optPos argPos hdrop hfuel hpos hrest
    · cases hfuel
    obtain ⟨hc, hflags, hat, hnext⟩ := flag_at hdrop hflags
    simp only [shortGroup, hat, if_neg hc, shortOptions_none hunknown]
    rfl

theorem Group.left_le {flags : List UInt8} (hgroup : Group options flags rest events problem left) :
    left.length ≤ rest.length := by
  induction hgroup with
  | noArg _ _ _ _ ih => exact ih
  | argNext => exact Nat.le_succ _
  | _ => exact Nat.le_refl _

theorem Argument.left_le (hargument : Argument options arg rest events problem left) : left.length ≤ rest.length := by
  cases hargument with
  | long _ _ hlong =>
    cases hlong with
    | argNext => exact Nat.le_succ _
    | _ => exact Nat.le_refl _
  | group _ _ hgroup => exact hgroup.left_le

theorem dash_ne_zero : dash ≠ 0 := by decide

/-- An argument with options is a round of the loop over the arguments. -/
theorem argument_takes (h : Distinct options) (hargument : Argument options arg rest events problem left)
    (hargs : argv.drop argPos = arg :: rest) : ∃ call, Takes argv events problem left call ∧ ∀ fuel nonOptions,
      arguments options argv (fuel + 1) argPos nonOptions =
        (do let argPos ← call; arguments options argv fuel (argPos + 1) nonOptions) := by
  obtain ⟨hpos, harg, hrest⟩ := argument_at hargs
  cases hargument with
  | @long name _ _ _ _ hbytes hname hlong =>
    have h0 : arg.at_ 0 = dash := by rw [CString.at_, hbytes]; rfl
    have h1 : arg.at_ 1 = dash := by rw [CString.at_, hbytes]; rfl
    have hdrop : arg.bytes.drop 2 = name := by rw [hbytes]; rfl
    have h2 : arg.at_ 2 ≠ 0 := by
      obtain ⟨d, flags, rfl⟩ := List.exists_cons_of_ne_nil hname
      rw [CString.at_eq hdrop]
      intro hzero
      apply arg.proper
      rw [hbytes, ← hzero]
      simp
    refine ⟨_, longOption_takes h hdrop hpos hrest hlong, fun fuel nonOptions => ?_⟩
    rw [arguments, if_pos hpos]
    simp only [harg, h0, h1, ne_eq, not_true_eq_false, false_or, if_neg dash_ne_zero, h2, and_false, if_false, if_true]
  | @group c flags _ _ _ _ hbytes hc hgroup =>
    have h0 : arg.at_ 0 = dash := by rw [CString.at_, hbytes]; rfl
    have h1 : arg.at_ 1 = c := by rw [CString.at_, hbytes]; rfl
    have hproper := arg.proper
    rw [hbytes] at hproper
    have hflags : 0 ∉ c :: flags := fun hmem => hproper (List.mem_cons_of_mem _ hmem)
    have hc0 : c ≠ 0 := fun hzero => hflags (hzero ▸ List.mem_cons_self)
    have hdrop : arg.bytes.drop 1 = c :: flags := by rw [hbytes]; rfl
    have hfuel : (c :: flags).length ≤ arg.bytes.length := by
      rw [hbytes]
      exact Nat.le_succ _
    refine ⟨_, shortGroup_takes h hgroup hflags hdrop hfuel hpos hrest, fun fuel nonOptions => ?_⟩
    rw [arguments, if_pos hpos]
    simp only [harg, h0, h1, ne_eq, not_true_eq_false, false_or, if_neg hc0, hc, false_and, if_false]

/-- The outcome of the loop over the arguments. -/
def outcome (problem : Option Problem) (nonOptions : List CString) : Call σ (List CString) :=
  match problem with
  | some problem => fail problem
  | none => return nonOptions

/-- The first condition of the loop. -/
theorem nonOption_of (h : arg.bytes.head? ≠ some dash ∨ arg.bytes = [dash]) : arg.at_ 0 ≠ dash ∨ arg.at_ 1 = 0 := by
  rcases h with hhead | hbytes
  · left
    rintro hdash
    apply hhead
    rw [CString.at_, List.getD_eq_getElem?_getD, ← List.head?_eq_getElem?] at hdash
    cases hfirst : arg.bytes.head? with
    | none =>
      rw [hfirst] at hdash
      exact absurd hdash.symm dash_ne_zero
    | some b =>
      rw [hfirst] at hdash
      exact congrArg some hdash
  · right
    rw [CString.at_, hbytes]
    rfl

theorem calls_append (before after : List (Event σ)) : calls (before ++ after) = calls before ++ calls after :=
  List.filterMap_append

theorem nonOptions_append (before after : List (Event σ)) :
    nonOptions (before ++ after) = nonOptions before ++ nonOptions after := List.filterMap_append

theorem calls_nonOptions (args : List CString) : calls (args.map (@Event.nonOption σ)) = [] := by
  simp [calls, List.filterMap_map]

theorem nonOptions_nonOptions (args : List CString) : nonOptions (args.map (@Event.nonOption σ)) = args := by
  simp [nonOptions, List.filterMap_map]

theorem Group.nonOptions_eq {flags : List UInt8} (hgroup : Group options flags rest events problem left) :
    nonOptions events = [] := by
  induction hgroup with
  | noArg _ _ _ _ ih => exact ih
  | _ => rfl

theorem Argument.nonOptions_eq (hargument : Argument options arg rest events problem left) : nonOptions events = [] := by
  cases hargument with
  | long _ _ hlong => cases hlong <;> rfl
  | group _ _ hgroup => exact hgroup.nonOptions_eq

/-- The arguments that are left are read in the loop as the grammar reads them. -/
theorem arguments_reads (h : Distinct options) {args : List CString} (hreads : Reads options args events problem) :
    ∀ {fuel argPos : ℕ} {before : List CString}, argv.drop argPos = args → args.length ≤ fuel →
      arguments options argv fuel argPos before =
        (do performs (calls events); outcome problem (before ++ nonOptions events)) := by
  induction hreads with
  | done =>
    intro fuel argPos before hargs hfuel
    rw [List.drop_eq_nil_iff] at hargs
    have hend : arguments options argv fuel argPos before = return before := by
      cases fuel with
      | zero => rfl
      | succ fuel => rw [arguments, if_neg (by omega)]
    rw [hend, performs_nil, nonOptions, List.filterMap_nil, List.append_nil]
    rfl
  | @nonOption arg rest events problem hnon _ ih =>
    rintro (- | fuel) argPos before hargs hfuel
    · cases hfuel
    obtain ⟨hpos, harg, hrest⟩ := argument_at hargs
    rw [arguments, if_pos hpos]
    simp only [harg, if_pos (nonOption_of hnon)]
    rw [ih hrest (Nat.le_of_succ_le_succ hfuel), List.append_assoc]
    rfl
  | @dashes arg rest hbytes =>
    rintro (- | fuel) argPos before hargs hfuel
    · cases hfuel
    obtain ⟨hpos, harg, hrest⟩ := argument_at hargs
    have h0 : arg.at_ 0 = dash := by rw [CString.at_, hbytes]; rfl
    have h1 : arg.at_ 1 = dash := by rw [CString.at_, hbytes]; rfl
    have h2 : arg.at_ 2 = 0 := by rw [CString.at_, hbytes]; rfl
    rw [arguments, if_pos hpos]
    simp only [harg, h0, h1, h2, hrest, ne_eq, not_true_eq_false, false_or, if_neg dash_ne_zero, and_self, if_true]
    rw [calls_nonOptions, nonOptions_nonOptions]
    rfl
  | @options arg rest events left events' problem hargument _ ih =>
    rintro (- | fuel) argPos before hargs hfuel
    · cases hfuel
    obtain ⟨call, htakes, hround⟩ := argument_takes h hargument hargs
    obtain ⟨argPos', hpos', hleft, rfl⟩ := htakes
    have hle := hargument.left_le
    have hfuel' : left.length ≤ fuel := by
      rw [List.length_cons] at hfuel
      omega
    rw [hround, calls_append, nonOptions_append, hargument.nonOptions_eq, List.nil_append, performs_append]
    simp only [bind_assoc, pure_bind, ih hleft hfuel']
  | @problem arg rest events problem left hargument =>
    rintro (- | fuel) argPos before hargs hfuel
    · cases hfuel
    obtain ⟨call, htakes, hround⟩ := argument_takes h hargument hargs
    obtain rfl : call = _ := htakes
    rw [hround, bind_assoc]
    rfl

end Loops

/-! ### The whole run -/

section Runs

variable {σ : Type} {parser : OptionParser σ} {argv : List CString} {expected : ℤ} {events : List (Event σ)}
  {problem : Option Problem}

/-- What a parser has to do with a command line that says `events` and is not wrong but for `problem`: the callbacks are
called in its order, up to the first error, and then the checks if nothing is wrong. -/
def reference (parser : OptionParser σ) (expected : ℤ) (events : List (Event σ)) (problem : Option Problem) :
    Call σ (List CString) := do
  performs (calls events)
  match problem.or (countProblem expected (nonOptions events).length) with
  | some problem => fail problem
  | none =>
    parser.checks.forM id
    return nonOptions events

/-- All calls return, one after the other. -/
inductive Passes : List (Call σ Unit) → σ → σ → Prop
  | nil {s} : Passes [] s s
  | cons {call calls s t u} : call.run s = (.ok (), t) → Passes calls t u → Passes (call :: calls) s u

theorem countProblem_eq_none {count : ℕ} : countProblem expected count = none ↔ expected < 0 ∨ (count : ℤ) = expected := by
  unfold countProblem
  split_ifs <;> simp <;> omega

theorem run_eq (h : Distinct parser.options) (hreads : Reads parser.options argv.tail events problem) :
    run parser argv expected = reference parser expected events problem := by
  have hargs : argv.drop 1 = argv.tail := List.drop_one
  have hfuel : argv.tail.length ≤ argv.length := by
    rw [List.length_tail]
    exact Nat.sub_le _ _
  unfold run reference
  rw [arguments_reads h hreads hargs hfuel, List.nil_append, bind_assoc]
  refine bind_congr fun _ => ?_
  cases problem with
  | some problem => rfl
  | none => rfl

theorem bind_ok {α β : Type} {x : Call σ α} {f : α → Call σ β} {s u : σ} {b : β} :
    (x >>= f).run s = (.ok b, u) ↔ ∃ a t, x.run s = (.ok a, t) ∧ (f a).run t = (.ok b, u) := by
  have hrun : (x >>= f).run s = match x.run s with
      | (.ok a, t) => (f a).run t
      | (.error e, t) => (.error e, t) := by
    change (match x.run s with | (r, t) => ExceptT.bindCont f r t) = _
    rcases x.run s with ⟨e | a, t⟩ <;> rfl
  rw [hrun]
  rcases hx : x.run s with ⟨e | a, t⟩
  · constructor
    · intro h
      cases (Prod.mk.inj h).1
    · rintro ⟨a, t', hsame, -⟩
      cases (Prod.mk.inj hsame).1
  · constructor
    · exact fun hf => ⟨a, t, rfl, hf⟩
    · rintro ⟨a', t', hsame, hf⟩
      obtain ⟨ha, rfl⟩ := Prod.mk.inj hsame
      obtain rfl := Except.ok.inj ha
      exact hf

theorem pure_ok {α : Type} {a b : α} {s t : σ} : (pure a : Call σ α).run s = (.ok b, t) ↔ b = a ∧ t = s := by
  constructor
  · intro h
    obtain ⟨ha, rfl⟩ := Prod.mk.inj h
    exact ⟨(Except.ok.inj ha).symm, rfl⟩
  · rintro ⟨rfl, rfl⟩
    rfl

theorem forM_ok : ∀ {calls : List (Call σ Unit)} {s t : σ}, (calls.forM id).run s = (.ok (), t) ↔ Passes calls s t
  | [], s, t => by
    constructor
    · intro h
      obtain ⟨-, rfl⟩ := pure_ok.mp h
      exact .nil
    · intro h
      cases h
      rfl
  | call :: calls, s, t => by
    change (call >>= fun _ => calls.forM id).run s = _ ↔ _
    rw [bind_ok]
    constructor
    · rintro ⟨⟨⟩, u, hcall, hrest⟩
      exact .cons hcall (forM_ok.mp hrest)
    · rintro (- | ⟨hcall, hrest⟩)
      exact ⟨(), _, hcall, forM_ok.mpr hrest⟩

theorem passes_append {before after : List (Call σ Unit)} : ∀ {s t : σ},
    Passes (before ++ after) s t ↔ ∃ u, Passes before s u ∧ Passes after u t := by
  induction before with
  | nil =>
    intro s t
    constructor
    · exact fun h => ⟨s, .nil, h⟩
    · rintro ⟨u, (- | -), h⟩
      exact h
  | cons call before ih =>
    intro s t
    constructor
    · rintro (- | ⟨hcall, hrest⟩)
      obtain ⟨u, hbefore, hafter⟩ := ih.mp hrest
      exact ⟨u, .cons hcall hbefore, hafter⟩
    · rintro ⟨u, (- | ⟨hcall, hbefore⟩), hafter⟩
      exact .cons hcall (ih.mpr ⟨u, hbefore, hafter⟩)

theorem performs_ok {calls : List (Opt σ × List UInt8)} {s t : σ} :
    (performs calls).run s = (.ok (), t) ↔ Passes (calls.map fun call => call.1.argCallback call.2) s t := by
  rw [← forM_ok]
  have hmap : performs calls = (calls.map fun call => call.1.argCallback call.2).forM id := by
    induction calls with
    | nil => rfl
    | cons call calls ih =>
      rw [List.map_cons]
      exact congrArg (fun rest => call.1.argCallback call.2 >>= fun _ => rest) ih
  rw [hmap]

/-- The parser returns without an error exactly when the command line is read to its end, with a fitting number of
non-options, and all callbacks and then all checks pass. -/
theorem reference_ok {s t : σ} {args : List CString} : (reference parser expected events problem).run s = (.ok args, t) ↔
    problem = none ∧ (expected < 0 ∨ ((nonOptions events).length : ℤ) = expected) ∧ args = nonOptions events ∧
      Passes ((calls events).map (fun call => call.1.argCallback call.2) ++ parser.checks) s t := by
  rw [reference, bind_ok, passes_append, ← countProblem_eq_none]
  constructor
  · rintro ⟨⟨⟩, u, hcalls, hrest⟩
    rcases hproblem : problem.or (countProblem expected (nonOptions events).length) with - | p
    · rw [hproblem] at hrest
      obtain ⟨⟨⟩, v, hchecks, hreturn⟩ := bind_ok.mp hrest
      obtain ⟨rfl, rfl⟩ := pure_ok.mp hreturn
      obtain ⟨rfl, hcount⟩ := Option.or_eq_none_iff.mp hproblem
      exact ⟨rfl, hcount, rfl, u, performs_ok.mp hcalls, forM_ok.mp hchecks⟩
    · rw [hproblem] at hrest
      cases (Prod.mk.inj hrest).1
  · rintro ⟨rfl, hcount, rfl, u, hcalls, hchecks⟩
    refine ⟨(), u, performs_ok.mpr hcalls, ?_⟩
    rw [hcount]
    exact bind_ok.mpr ⟨(), t, forM_ok.mpr hchecks, rfl⟩

/-- **Command lines.**  The grammar reads every command line, and as it reads it the parser calls the callbacks in order
up to the first error, returns the non-options, and fails for an error of the grammar, of a callback, of the number of
non-options or of a check, and for nothing else. -/
theorem run_reads (parser : OptionParser σ) (h : Distinct parser.options) (argv : List CString) (expected : ℤ) :
    (∃ events problem, Reads parser.options argv.tail events problem) ∧
      ∀ events problem, Reads parser.options argv.tail events problem →
        run parser argv expected = reference parser expected events problem ∧
          ∀ (s t : σ) args, (run parser argv expected).run s = (.ok args, t) ↔
            problem = none ∧ (expected < 0 ∨ ((nonOptions events).length : ℤ) = expected) ∧ args = nonOptions events ∧
              Passes ((calls events).map (fun call => call.1.argCallback call.2) ++ parser.checks) s t := by
  refine ⟨Reads.total parser.options _ argv.tail (Nat.le_refl _), fun events problem hreads => ?_⟩
  have hrun : run parser argv expected = _ := run_eq h hreads
  refine ⟨hrun, fun s t args => ?_⟩
  rw [hrun]
  exact reference_ok

end Runs

/-- A flag and an option with a parameter; the callbacks note what they are called with. -/
def noting : OptionParser (List (List UInt8)) where
  options := [
    ⟨.noArg, ch 'q', [], fun _ => modify (· ++ [[ch 'q']])⟩,
    ⟨.arg, ch 'p', chs "http-port".toList, fun parameter => modify (· ++ [parameter])⟩]
  checks := []

/-- `-qp -v` behind the name of the program. -/
def flagAndParameter : List CString := [default, ⟨chs "-qp".toList, by decide⟩, ⟨chs "-v".toList, by decide⟩]

theorem run_reads_two : (∃ events problem, Reads noting.options flagAndParameter.tail events problem) ∧
    ∀ events problem, Reads noting.options flagAndParameter.tail events problem →
      run noting flagAndParameter (-1) = reference noting (-1) events problem ∧
        ∀ s t args, (run noting flagAndParameter (-1)).run s = (.ok args, t) ↔
          problem = none ∧ ((-1 : ℤ) < 0 ∨ ((nonOptions events).length : ℤ) = -1) ∧ args = nonOptions events ∧
            Passes ((calls events).map (fun call => call.1.argCallback call.2) ++ noting.checks) s t :=
  run_reads noting (by simp [Distinct, noting, Clash, ch]) flagAndParameter (-1)

/-- The parameter of `p` is the next argument, although it looks like an option. -/
example : (run noting flagAndParameter (-1)).run [] = (.ok [], [chs "q".toList, chs "-v".toList]) := rfl

end OptionParser

end TdUtils
