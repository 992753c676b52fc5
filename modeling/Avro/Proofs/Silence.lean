/-
# Silence: what the command says if it is asked to be quiet

A run ends in one of two ways.  It comes to a finding about the schema or the datum, which the quiet
option holds back; or it breaks down, because a file cannot be read or the datum is not JSON, and
then it says so whatever it was asked.  The status is the same with the option and without it.

* `PartialArguments.Reads`: how a command line is read, argument by argument.
* `Arguments.ofList?_insert_quiet`: the option may be put in wherever an argument may stand, and
  changes nothing else.
* `Arguments.Succeeds`, `Arguments.BreaksDown`: when the command comes to its end without a fault,
  and when it cannot do its work.
* `run_quiet`: the status, and what is printed, with the option.
* `run_quiet_ne_silent`: so a run with the option is not always silent.
-/
import Mathlib
import Avro.CommandLine

namespace Avro

/-! ## 1. Reading the arguments -/

namespace PartialArguments

/-- How arguments are read: two dashes end them, an option may take the argument after it as its
value, and any other argument stands by itself. -/
inductive Reads : PartialArguments → List String → PartialArguments → Prop
  | done (g : PartialArguments) : Reads g [] g
  | ended (g : PartialArguments) : Reads g ["--"] g
  | single {g g₁ g' : PartialArguments} {text : String} {rest : List String} :
    text ≠ "--" → g.argument text = some (g₁, .none) → Reads g₁ rest g' → Reads g (text :: rest) g'
  | pair {g g₁ g₂ g' : PartialArguments} {text value : String} {option : ValueOption}
      {rest : List String} :
    text ≠ "--" → g.argument text = some (g₁, some option) → isValue value = true →
    g₁.set option value = some g₂ → Reads g₂ rest g' → Reads g (text :: value :: rest) g'

variable {g g₁ g₂ g' : PartialArguments} {text value : String} {option : ValueOption}
  {rest xs ys : List String}

theorem readAll_single (htext : text ≠ "--") (h : g.argument text = some (g₁, .none)) :
    g.readAll (text :: rest) = g₁.readAll rest := by
  rw [readAll, h]
  exact htext

theorem readAll_pair (htext : text ≠ "--") (h : g.argument text = some (g₁, some option))
    (hvalue : isValue value = true) (hset : g₁.set option value = some g₂) :
    g.readAll (text :: value :: rest) = g₂.readAll rest := by
  rw [readAll, h]
  · simp only [hvalue, if_true, hset]
  · exact htext

theorem reads_of_readAll (h : g.readAll xs = some g') : Reads g xs g' := by
  fun_induction readAll g xs with
  | case1 => cases h; exact .done _
  | case2 _ rest hempty =>
    cases h
    rw [List.isEmpty_iff.mp hempty]
    exact .ended _
  | case3 => cases h
  | case4 => cases h
  | case5 g text rest htext g₁ harg ih => exact .single htext harg (ih h)
  | case6 => cases h
  | case7 => cases h
  | case8 g text htext g₁ option harg value rest hvalue g₂ hset ih =>
    exact .pair htext harg hvalue hset (ih h)
  | case9 => cases h

/-- What has been read stays read, unless the arguments were ended. -/
theorem Reads.readAll_append (h : Reads g xs g') (hend : "--" ∉ xs) (ys : List String) :
    g.readAll (xs ++ ys) = g'.readAll ys := by
  induction h with
  | done => rfl
  | ended => exact absurd List.mem_cons_self hend
  | single htext harg _ ih =>
    rw [List.cons_append, readAll_single htext harg]
    exact ih (fun hmem => hend (List.mem_cons_of_mem _ hmem))
  | pair htext harg hvalue hset _ ih =>
    rw [List.cons_append, List.cons_append, readAll_pair htext harg hvalue hset]
    exact ih (fun hmem => hend (List.mem_cons_of_mem _ (List.mem_cons_of_mem _ hmem)))

theorem Reads.readAll_eq (h : Reads g xs g') : g.readAll xs = some g' := by
  induction h with
  | done => rfl
  | ended => rfl
  | single htext harg _ ih => rw [readAll_single htext harg, ih]
  | pair htext harg hvalue hset _ ih => rw [readAll_pair htext harg hvalue hset, ih]

/-! ## 2. The quiet option -/

/-- The same arguments, and silence. -/
def hushed (g : PartialArguments) : PartialArguments :=
  { g with quiet := true }

/-- A value is set beside the quiet option. -/
theorem set_quiet (g : PartialArguments) (quiet : Bool) (option : ValueOption) (value : String) :
    { g with quiet := quiet }.set option value =
      (g.set option value).map fun g => { g with quiet := quiet } := by
  cases option with
  | schema => simp only [set]; split <;> rfl
  | datum => simp only [set]; split <;> rfl
  | maxDepth =>
    simp only [set]
    split
    · rfl
    · rw [Option.map_map]
      rfl

theorem set_hushed (h : g.set option value = some g') :
    g'.quiet = g.quiet ∧ g.hushed.set option value = some g'.hushed := by
  constructor
  · have hsame : some g' = (some g').map fun h => { h with quiet := g.quiet } := by
      rw [← h, ← set_quiet]
    exact (congrArg PartialArguments.quiet (Option.some.inj hsame) :)
  · rw [hushed, set_quiet, h]
    rfl

theorem withValue_hushed {cs : List Char} {pending : Option ValueOption}
    (h : letters.withValue g option cs = some (g', pending)) :
    g'.quiet = g.quiet ∧ letters.withValue g.hushed option cs = some (g'.hushed, pending) := by
  have hset : ∀ value, (g.set option value).map (·, Option.none) = some (g', pending) →
      g'.quiet = g.quiet ∧
        (g.hushed.set option value).map (·, Option.none) = some (g'.hushed, pending) := by
    intro value hmap
    obtain ⟨g₁, h₁, heq⟩ := Option.map_eq_some_iff.mp hmap
    cases heq
    obtain ⟨hquiet, hhushed⟩ := set_hushed h₁
    exact ⟨hquiet, by rw [hhushed]; rfl⟩
  unfold letters.withValue at h ⊢
  split at h
  · cases h
    exact ⟨rfl, rfl⟩
  · exact hset _ h
  · exact hset _ h

theorem setQuiet_eq_some_iff : g.setQuiet = some g' ↔ g.quiet = false ∧ g' = g.hushed := by
  rw [setQuiet]
  cases g.quiet with
  | true => simp
  | false => simp [hushed, eq_comm]

theorem quiet_of_setQuiet (h : g.setQuiet = some g') : g'.quiet = true := by
  obtain ⟨-, rfl⟩ := setQuiet_eq_some_iff.mp h
  rfl

/-- Letters among which the quiet option is not are read the same beside it. -/
theorem letters_hushed {cs : List Char} {pending : Option ValueOption}
    (h : g.letters cs = some (g', pending)) (hquiet : g'.quiet = false) :
    g.quiet = false ∧ g.hushed.letters cs = some (g'.hushed, pending) := by
  fun_induction letters g cs with
  | case1 =>
    cases h
    exact ⟨hquiet, rfl⟩
  | case2 g cs ih =>
    obtain ⟨g₁, h₁, h⟩ := Option.bind_eq_some_iff.mp h
    have hnot := (ih g₁ h).1
    rw [quiet_of_setQuiet h₁] at hnot
    cases hnot
  | case3 g cs =>
    obtain ⟨hsame, hhushed⟩ := withValue_hushed h
    exact ⟨hsame.symm.trans hquiet, hhushed⟩
  | case4 g cs =>
    obtain ⟨hsame, hhushed⟩ := withValue_hushed h
    exact ⟨hsame.symm.trans hquiet, hhushed⟩
  | case5 => cases h

theorem word_hushed {cs : List Char} {pending : Option ValueOption}
    (h : g.word cs = some (g', pending)) (hquiet : g'.quiet = false) :
    g.quiet = false ∧ g.hushed.word cs = some (g'.hushed, pending) := by
  unfold word at h ⊢
  cases hrest : cs.dropWhile (· ≠ '=') with
  | nil =>
    simp only [hrest] at h ⊢
    split at h
    · obtain ⟨g₁, h₁, heq⟩ := Option.map_eq_some_iff.mp h
      cases heq
      rw [quiet_of_setQuiet h₁] at hquiet
      cases hquiet
    · next hname =>
      obtain ⟨option, hoption, heq⟩ := Option.map_eq_some_iff.mp h
      cases heq
      rw [if_neg hname, hoption]
      exact ⟨hquiet, rfl⟩
  | cons sign value =>
    simp only [hrest] at h ⊢
    obtain ⟨option, hoption, h⟩ := Option.bind_eq_some_iff.mp h
    obtain ⟨g₁, h₁, heq⟩ := Option.bind_eq_some_iff.mp h
    cases heq
    obtain ⟨hsame, hhushed⟩ := set_hushed h₁
    refine ⟨hsame.symm.trans hquiet, ?_⟩
    simp only [hoption, hhushed, Option.bind_eq_bind, Option.bind_some]
    rfl

theorem argument_hushed {pending : Option ValueOption}
    (h : g.argument text = some (g', pending)) (hquiet : g'.quiet = false) :
    g.quiet = false ∧ g.hushed.argument text = some (g'.hushed, pending) := by
  unfold argument at h ⊢
  split at h
  · exact word_hushed h hquiet
  · exact letters_hushed h hquiet
  · cases h

/-- **Arguments without the quiet option are read the same beside it.** -/
theorem Reads.hushed (h : Reads g xs g') (hquiet : g'.quiet = false) :
    g.quiet = false ∧ Reads g.hushed xs g'.hushed := by
  induction h with
  | done g => exact ⟨hquiet, .done _⟩
  | ended g => exact ⟨hquiet, .ended _⟩
  | single htext harg _ ih =>
    obtain ⟨hrest, hreads⟩ := ih hquiet
    obtain ⟨hfirst, hsame⟩ := argument_hushed harg hrest
    exact ⟨hfirst, .single htext hsame hreads⟩
  | pair htext harg hvalue hset _ ih =>
    obtain ⟨hrest, hreads⟩ := ih hquiet
    obtain ⟨hkept, hsame⟩ := set_hushed hset
    obtain ⟨hfirst, harg'⟩ := argument_hushed harg (hkept.symm.trans hrest)
    exact ⟨hfirst, .pair htext harg' hvalue hsame hreads⟩

end PartialArguments

namespace Arguments

theorem ofList?_eq_some_iff {xs : List String} {a : Arguments} :
    ofList? xs = some a ↔
      ∃ g, PartialArguments.Reads .none xs g ∧ g.schema = some a.schema ∧ a.datum = g.datum ∧
        a.maxDepth = g.maxDepth.getD Options.standard.maxDepth ∧ a.quiet = g.quiet := by
  simp only [ofList?, Option.bind_eq_bind, Option.bind_eq_some_iff, Option.pure_def,
    Option.some.injEq]
  constructor
  · rintro ⟨g, hread, schema, hschema, rfl⟩
    exact ⟨g, PartialArguments.reads_of_readAll hread, hschema, rfl, rfl, rfl⟩
  · rintro ⟨g, hreads, hschema, hdatum, hdepth, hquiet⟩
    refine ⟨g, hreads.readAll_eq, a.schema, hschema, ?_⟩
    rw [← hdatum, ← hdepth, ← hquiet]

/-- After these arguments another one may stand: no option waits for its value, and two dashes have
not ended them. -/
def Open (xs : List String) : Prop :=
  "--" ∉ xs ∧ ∃ g, PartialArguments.Reads .none xs g

/-- **The quiet option may be put in wherever an argument may stand**, and changes nothing else. -/
theorem ofList?_insert_quiet {xs ys : List String} {a : Arguments} {option : String}
    (hoption : option = "-q" ∨ option = "--quiet") (hopen : Open xs)
    (h : ofList? (xs ++ ys) = some a) (hquiet : a.quiet = false) :
    ofList? (xs ++ option :: ys) = some { a with quiet := true } := by
  obtain ⟨hend, g₀, hxs⟩ := hopen
  obtain ⟨g, hreads, hschema, hdatum, hdepth, hg⟩ := ofList?_eq_some_iff.mp h
  have hys : PartialArguments.Reads g₀ ys g := by
    refine PartialArguments.reads_of_readAll ?_
    rw [← hxs.readAll_append hend, hreads.readAll_eq]
  obtain ⟨hfresh, hhushed⟩ := hys.hushed (hg.symm.trans hquiet)
  have harg : g₀.argument option = some (g₀.hushed, none) := by
    have hset : g₀.setQuiet = some g₀.hushed :=
      PartialArguments.setQuiet_eq_some_iff.mpr ⟨hfresh, rfl⟩
    rcases hoption with rfl | rfl
    · change (g₀.setQuiet.bind fun g => g.letters []) = _
      rw [hset]
      rfl
    · change g₀.setQuiet.map (·, none) = _
      rw [hset]
      rfl
  have hne : option ≠ "--" := by
    rcases hoption with rfl | rfl <;> decide
  refine ofList?_eq_some_iff.mpr
    ⟨g.hushed, PartialArguments.reads_of_readAll ?_, hschema, hdatum, hdepth, rfl⟩
  rw [hxs.readAll_append hend, PartialArguments.readAll_single hne harg, hhushed.readAll_eq]

end Arguments

/-! ## 3. How a run ends -/

theorem Outcome.status_silenced (o : Outcome) (quiet : Bool) :
    (o.silenced quiet).status = o.status := by
  cases quiet <;> rfl

namespace Arguments

section Ends

variable (wording : Wording) (file : String → Except String String) (a : Arguments)

/-- The schema file is read and holds this document, under the depth that is given. -/
def Parses (doc : Document) : Prop :=
  ∃ text, file a.schema = .ok text ∧ Document.ofText ⟨a.maxDepth⟩ text = .ok doc

/-- The schema file holds a document, and the datum file, if one is given, is read and holds a JSON
value that is valid. -/
def Succeeds : Prop :=
  ∃ doc, a.Parses file doc ∧ ∀ path, a.datum = some path →
    ∃ text v, file path = .ok text ∧ Json.read text = .ok v ∧ doc.validate (.ofJson v) = .ok ()

/-- The command cannot do its work, by a problem and its cause. -/
inductive BreaksDown : String → String → Prop
  | schema {cause : String} : file a.schema = .error cause →
    BreaksDown s!"Failed to read schema file {a.schema}" cause
  | datum {doc : Document} {path cause : String} : a.Parses file doc → a.datum = some path →
    file path = .error cause → BreaksDown s!"Failed to read datum file {path}" cause
  | json {doc : Document} {path text : String} {fault : Json.Fault} : a.Parses file doc →
    a.datum = some path → file path = .ok text → Json.read text = .error fault →
    BreaksDown s!"Datum file {path} is not valid JSON" (wording text fault)

/-- What a run comes to, as far as it does not depend on whether it is to be quiet. -/
inductive EndsIn : (Bool → Outcome) → Prop
  | breakdown {problem cause : String} : a.BreaksDown wording file problem cause →
    EndsIn fun _ => .breakdown problem cause
  | refused {text : String} {e : SchemaError} : file a.schema = .ok text →
    Document.ofText ⟨a.maxDepth⟩ text = .error e →
    EndsIn (Outcome.failure
      s!"Invalid schema {a.schema}: {e.messageWith (wording text)}\n").silenced
  | printed {doc : Document} : a.Parses file doc → a.datum = none →
    EndsIn (Outcome.success (doc.toJson.pretty ++ "\n")).silenced
  | valid {doc : Document} {path text : String} {v : Json} : a.Parses file doc →
    a.datum = some path → file path = .ok text → Json.read text = .ok v →
    doc.validate (.ofJson v) = .ok () → EndsIn (Outcome.success "valid\n").silenced
  | rejected {doc : Document} {path text : String} {v : Json} {r : Rejection} :
    a.Parses file doc → a.datum = some path → file path = .ok text → Json.read text = .ok v →
    doc.validate (.ofJson v) = .error r → EndsIn (Outcome.failure r.report).silenced

end Ends

variable {wording : Wording} {file : String → Except String String} {a : Arguments}

/-- A run has one of these ends, whether it is quiet or not. -/
theorem exists_endsIn (wording : Wording) (file : String → Except String String) (a : Arguments) :
    ∃ o, a.EndsIn wording file o ∧
      ∀ quiet, runWith wording file { a with quiet := quiet } = o quiet := by
  cases hschema : file a.schema with
  | error cause =>
    exact ⟨_, .breakdown (.schema hschema), fun quiet => by simp only [runWith, hschema]⟩
  | ok text =>
    cases hdoc : Document.ofText ⟨a.maxDepth⟩ text with
    | error e =>
      exact ⟨_, .refused hschema hdoc, fun quiet => by simp only [runWith, hschema, hdoc]⟩
    | ok doc =>
      have hparses : a.Parses file doc := ⟨text, hschema, hdoc⟩
      cases hpath : a.datum with
      | none =>
        exact ⟨_, .printed hparses hpath, fun quiet => by simp only [runWith, hschema, hdoc]⟩
      | some path =>
        cases hfile : file path with
        | error cause =>
          exact ⟨_, .breakdown (.datum hparses hpath hfile),
            fun quiet => by simp only [runWith, hschema, hdoc, hfile]⟩
        | ok json =>
          cases hread : Json.read json with
          | error fault =>
            exact ⟨_, .breakdown (.json hparses hpath hfile hread),
              fun quiet => by simp only [runWith, hschema, hdoc, hfile, hread]⟩
          | ok v =>
            cases hvalid : doc.validate (.ofJson v) with
            | ok u =>
              exact ⟨_, .valid hparses hpath hfile hread hvalid,
                fun quiet => by simp only [runWith, hschema, hdoc, hfile, hread, hvalid]⟩
            | error r =>
              exact ⟨_, .rejected hparses hpath hfile hread hvalid,
                fun quiet => by simp only [runWith, hschema, hdoc, hfile, hread, hvalid]⟩

/-- A run that cannot do its work says so, even if it is to be quiet. -/
theorem BreaksDown.run_eq {problem cause : String} (h : a.BreaksDown wording file problem cause)
    (quiet : Bool) : runWith wording file { a with quiet := quiet } = .breakdown problem cause := by
  cases h with
  | schema hschema => simp only [runWith, hschema]
  | datum hparses hpath hfile =>
    obtain ⟨text, hschema, hdoc⟩ := hparses
    simp only [runWith, hschema, hdoc, hpath, hfile]
  | json hparses hpath hfile hread =>
    obtain ⟨text, hschema, hdoc⟩ := hparses
    simp only [runWith, hschema, hdoc, hpath, hfile, hread]

theorem Succeeds.status_eq (h : a.Succeeds file) : (runWith wording file a).status = 0 := by
  obtain ⟨doc, ⟨text, hschema, hdoc⟩, hdatum⟩ := h
  cases hpath : a.datum with
  | none =>
    simp only [runWith, hschema, hdoc, hpath]
    exact (Outcome.success _).status_silenced a.quiet
  | some path =>
    obtain ⟨json, v, hfile, hread, hvalid⟩ := hdatum path hpath
    simp only [runWith, hschema, hdoc, hpath, hfile, hread, hvalid]
    exact (Outcome.success _).status_silenced a.quiet

variable {o : Bool → Outcome}

theorem EndsIn.status_eq (h : a.EndsIn wording file o) (quiet quiet' : Bool) :
    (o quiet).status = (o quiet').status := by
  cases h with
  | breakdown => rfl
  | _ => rw [Outcome.status_silenced, Outcome.status_silenced]

theorem EndsIn.status_cases (h : a.EndsIn wording file o) (quiet : Bool) :
    (o quiet).status = 0 ∧ a.Succeeds file ∨ (o quiet).status = 1 := by
  cases h with
  | breakdown => exact .inr rfl
  | refused => exact .inr (Outcome.status_silenced _ _)
  | printed hparses hpath =>
    refine .inl ⟨Outcome.status_silenced _ _, _, hparses, fun path h => ?_⟩
    rw [hpath] at h
    cases h
  | valid hparses hpath hfile hread hvalid =>
    refine .inl ⟨Outcome.status_silenced _ _, _, hparses, fun path h => ?_⟩
    obtain rfl := Option.some.inj (hpath.symm.trans h)
    exact ⟨_, _, hfile, hread, hvalid⟩
  | rejected => exact .inr (Outcome.status_silenced _ _)

/-- A run that can do its work is silent if it is to be quiet. -/
theorem EndsIn.quiet_eq (h : a.EndsIn wording file o)
    (hworks : ∀ problem cause, ¬ a.BreaksDown wording file problem cause) :
    o true = ⟨(o true).status, "", ""⟩ := by
  cases h with
  | breakdown hbreaks => exact absurd hbreaks (hworks _ _)
  | _ => rfl

end Arguments

/-! ## 4. Quiet runs -/

/-- **What a quiet run does.**  The option may be added to a command line wherever an argument may
stand.  It leaves the status as it is, which is zero exactly if the schema file is read and holds a
document, and the datum, if one is given, is read, is JSON and is valid, and else is one.  A run
with the option prints nothing, unless the command cannot do its work: then it says so all the same.
None of this depends on how the decoder words its faults. -/
theorem run_quiet (wording : Wording) (file : String → Except String String) (a : Arguments) :
    (∀ xs ys option, option = "-q" ∨ option = "--quiet" → Arguments.Open xs →
      Arguments.ofList? (xs ++ ys) = some a → a.quiet = false →
      Arguments.ofList? (xs ++ option :: ys) = some { a with quiet := true }) ∧
    (runWith wording file { a with quiet := true }).status = (runWith wording file a).status ∧
    ((runWith wording file a).status = 0 ↔ a.Succeeds file) ∧
    ((runWith wording file a).status = 0 ∨ (runWith wording file a).status = 1) ∧
    (∀ problem cause, a.BreaksDown wording file problem cause →
      runWith wording file { a with quiet := true } = .breakdown problem cause) ∧
    ((∀ problem cause, ¬ a.BreaksDown wording file problem cause) →
      runWith wording file { a with quiet := true } =
        ⟨(runWith wording file a).status, "", ""⟩) := by
  obtain ⟨o, hends, hrun⟩ := Arguments.exists_endsIn wording file a
  have hself : runWith wording file a = o a.quiet := hrun a.quiet
  have hstatus : (runWith wording file { a with quiet := true }).status =
      (runWith wording file a).status := by
    rw [hself, hrun true]
    exact hends.status_eq true a.quiet
  have hcases := hends.status_cases a.quiet
  rw [← hself] at hcases
  refine ⟨fun xs ys option hoption hopen h hquiet =>
      Arguments.ofList?_insert_quiet hoption hopen h hquiet,
    hstatus, ⟨fun hzero => ?_, Arguments.Succeeds.status_eq⟩, hcases.imp_left And.left,
    fun problem cause hbreaks => hbreaks.run_eq true, fun hworks => ?_⟩
  · rcases hcases with ⟨-, hsucceeds⟩ | hone
    · exact hsucceeds
    · rw [hzero] at hone
      cases hone
  · rw [← hstatus, hrun true]
    exact hends.quiet_eq hworks

namespace Example

/-- A directory with a schema and a datum. -/
def integerFiles (path : String) : Except String String :=
  if path = "s.json" then .ok "\"int\""
  else if path = "d.json" then .ok "1"
  else .error "No such file or directory (os error 2)"

def integerArguments : Arguments :=
  ⟨"s.json", some "d.json", 64, false⟩

theorem open_schema : Arguments.Open ["-s", "s.json"] :=
  ⟨by decide, _, .pair (by decide) rfl rfl rfl (.done _)⟩

theorem succeeds_integer : integerArguments.Succeeds integerFiles := by
  refine ⟨⟨.primitive .int, .empty⟩, ⟨"\"int\"", by rfl, by cbv⟩, ?_⟩
  rintro path ⟨⟩
  exact ⟨"1", .num (.int 1), by rfl, by cbv, by cbv⟩

theorem not_breaksDown_integer (wording : Wording) (problem cause : String) :
    ¬ integerArguments.BreaksDown wording integerFiles problem cause := by
  have hread : Json.read "1" = .ok (.num (.int 1)) := by cbv
  rintro (h | ⟨-, ⟨⟩, h⟩ | ⟨-, ⟨⟩, ⟨⟩, h⟩)
  · cases h
  · cases h
  · rw [hread] at h
    cases h

end Example

/-- With the option a datum that is valid is reported by the status alone; and a schema file that is
not there by a text as well. -/
theorem run_quiet_integer :
    Arguments.ofList? ["-s", "s.json", "--quiet", "-d", "d.json"] =
      some { Example.integerArguments with quiet := true } ∧
    run Example.integerFiles { Example.integerArguments with quiet := true } = ⟨0, "", ""⟩ ∧
    run Example.integerFiles ⟨"t.json", none, 64, true⟩ =
      ⟨1, "", "Error: Failed to read schema file t.json\n\nCaused by:\n" ++
        "    No such file or directory (os error 2)\n"⟩ := by
  obtain ⟨hinsert, -, hzero, -, -, hsilent⟩ :=
    run_quiet (fun _ fault => fault.message) Example.integerFiles Example.integerArguments
  obtain ⟨-, -, -, -, hbreaks, -⟩ :=
    run_quiet (fun _ fault => fault.message) Example.integerFiles ⟨"t.json", none, 64, false⟩
  have hmissing : Example.integerFiles "t.json" =
      .error "No such file or directory (os error 2)" := rfl
  refine ⟨hinsert ["-s", "s.json"] ["-d", "d.json"] "--quiet" (.inr rfl) Example.open_schema
    (by rfl) rfl, ?_, ?_⟩
  · rw [hzero.mpr Example.succeeds_integer] at hsilent
    exact hsilent (Example.not_breaksDown_integer _)
  · exact (hbreaks _ _ (.schema hmissing)).trans (by rfl)

/-- **A quiet run is not always silent.**  The schema file is not there, and the option is given. -/
theorem run_quiet_ne_silent :
    Arguments.ofList? ["-s", "missing.json", "-q"] = some ⟨"missing.json", none, 64, true⟩ ∧
    ¬ ∀ (file : String → Except String String) (arguments : List String) (a : Arguments),
      Arguments.ofList? arguments = some a → a.quiet = true →
        (run file a).stdout = "" ∧ (run file a).stderr = "" := by
  have hread : Arguments.ofList? ["-s", "missing.json", "-q"] =
      some ⟨"missing.json", none, 64, true⟩ := by rfl
  refine ⟨hread, fun hsilent => ?_⟩
  obtain ⟨-, hstderr⟩ := hsilent Example.integerFiles _ _ hread rfl
  revert hstderr
  decide

end Avro
