import FlightScript.Command
import FlightScript.Proofs.Bytes
import FlightScript.Proofs.Validation

/-!
# `Proofs.Commands` — commands write all or nothing

A command that converts or formats works on the whole source before it writes anything. So it ends in one of three ways:
with a failure and a store as it was, with the whole result in its place, or with a refusal of the system. In none of
them a file is lost or half written, and besides the file only directories on the way to it are new. To a source without
errors there is always a document, so the failures of the export are never heard of.

## Contents

* `Store.Extends`, `Store.Wrote`, and `Store.write_cases`: what a write does to a store;
* `Fails`, `Delivered`, `Produced`: how a run can end;
* `Request.Promise`, and the main theorem `commands_write_all_or_nothing`.
-/

namespace FlightScript.Command

/-! ## Stores

A store maps places to entries. A write looks a place up, makes directories on the way, and puts a file there, so
three kinds of steps have to be looked at. -/

namespace Store

variable {s t u : Store} {here there other steps : List String}

theorem get?_insert_of_ne (h : other ≠ here) (e : Entry) : (s.insert here e).get? other = s.get? other := by
  have hfilter : ((s.entries.filter fun e => e.1 != here).find? fun e => e.1 == other) =
      s.entries.find? fun e => e.1 == other := by
    rw [List.find?_filter]
    congr 1
    funext e
    by_cases he : e.1 = other
    · simp [he, h]
    · simp [he]
  rw [get?, get?, insert, List.find?_cons_of_neg (by simpa using h.symm), hfilter]

theorem get?_insert_self (h : isGiven here = false) (e : Entry) : (s.insert here e).get? here = some e := by
  simp [get?, insert, h]

/-- What is not a directory lies at no given place. -/
theorem isGiven_of_get? (s : Store) (h : s.get? here ≠ some .directory) : isGiven here = false := by
  by_contra hgiven
  rw [get?, if_pos (by simpa using hgiven)] at h
  exact h rfl

/-- A step leads somewhere exactly if a directory is there. -/
theorem enter_eq_ok_iff {step : String} :
    s.enter here step = .ok there ↔ there = place here step ∧ s.get? there = some .directory := by
  unfold enter
  constructor
  · intro h
    split at h
    · rename_i hget
      obtain rfl := Except.ok.inj h
      exact ⟨rfl, hget⟩
    · cases h
    · cases h
  · rintro ⟨rfl, hget⟩
    rw [hget]

/-- Steps lead to the same place as long as no directory is lost. -/
theorem locate_mono (h : ∀ p, s.get? p = some .directory → t.get? p = some .directory)
    (hs : s.locate here steps = .ok there) : t.locate here steps = .ok there := by
  induction steps generalizing here with
  | nil => exact hs
  | cons step rest ih =>
      cases rest with
      | nil => exact hs
      | cons next rest =>
          rw [locate.eq_3 _ _ _ _ (by simp)] at hs ⊢
          cases henter : s.enter here step with
          | error e =>
              rw [henter] at hs
              cases hs
          | ok inside =>
              obtain ⟨rfl, hget⟩ := enter_eq_ok_iff.mp henter
              rw [enter_eq_ok_iff.mpr ⟨rfl, h _ hget⟩]
              rw [henter] at hs
              exact ih hs

/-- Nothing has changed at a place, or a directory is new there and steps lead over it. -/
def KeptAt (s t : Store) (here steps p : List String) : Prop :=
  t.get? p = s.get? p ∨
    s.get? p = none ∧ t.get? p = some .directory ∧ ∃ way, way <+: steps ∧ t.locate here way = .ok p

/-- Nothing has changed, except for new directories that steps lead over. -/
def Extends (s t : Store) (here steps : List String) : Prop := ∀ p, s.KeptAt t here steps p

namespace Extends

theorem refl (s : Store) (here steps : List String) : s.Extends s here steps := fun _ => .inl rfl

theorem directory (h : s.Extends t here steps) {p : List String} (hp : s.get? p = some .directory) :
    t.get? p = some .directory := by
  rcases h p with heq | ⟨hnone, _⟩
  · rw [heq, hp]
  · rw [hp] at hnone
    cases hnone

/-- Two changes one after the other, where the steps of the first are the beginning of those of the second. -/
theorem trans {before : List String} (h : s.Extends t here before) (hstart : before <+: steps)
    (h' : t.Extends u here steps) : s.Extends u here steps := by
  intro p
  rcases h' p with heq' | ⟨hnone', hnew'⟩
  · rcases h p with heq | ⟨hnone, hget, way, hway, hlocate⟩
    · exact .inl (heq'.trans heq)
    · exact .inr ⟨hnone, heq'.trans hget, way, hway.trans hstart, locate_mono (fun _ => h'.directory) hlocate⟩
  · rcases h p with heq | ⟨_, hget, _⟩
    · exact .inr ⟨heq ▸ hnone', hnew'⟩
    · rw [hnone'] at hget
      cases hget

end Extends

/-- Making a directory changes nothing but that it is there, unless it was there before. -/
theorem makeDirectory_extends (h : s.makeDirectory here steps = .ok t) : s.Extends t here steps := by
  unfold makeDirectory at h
  cases hlocate : s.locate here steps with
  | error e =>
      rw [hlocate] at h
      cases h
  | ok there =>
      rw [hlocate] at h
      cases hget : s.get? there with
      | some e =>
          simp [hget, bind, Except.bind] at h
      | none =>
          obtain rfl : s.insert there .directory = t := by simpa [hget, bind, Except.bind] using h
          have hgiven : isGiven there = false := isGiven_of_get? s (by simp [hget])
          have hself := get?_insert_self (s := s) hgiven .directory
          intro p
          by_cases hp : p = there
          · subst hp
            refine .inr ⟨hget, hself, steps, List.prefix_refl _, locate_mono (fun q hq => ?_) hlocate⟩
            by_cases hne : q = p
            · exact hne ▸ hself
            · rw [get?_insert_of_ne hne, hq]
          · exact .inl (get?_insert_of_ne hp _)

/-- The directories on a way are made one behind the other, the outermost first. -/
theorem makeDirectories_extends {reversed : List String} (h : s.makeDirectories here reversed = .ok t) :
    s.Extends t here reversed.reverse := by
  induction reversed generalizing t with
  | nil =>
      obtain rfl := Except.ok.inj h
      exact .refl _ _ _
  | cons step before ih =>
      have hstart : before.reverse <+: (step :: before).reverse := by simp
      rw [makeDirectories] at h
      split at h
      · rename_i hmake
        obtain rfl := Except.ok.inj h
        exact makeDirectory_extends hmake
      · -- the directory around it is missing
        cases hbefore : s.makeDirectories here before with
        | error e =>
            rw [hbefore] at h
            cases h
        | ok d =>
            rw [hbefore] at h
            apply (ih hbefore).trans hstart
            simp only [bind, Except.bind] at h
            split at h
            · rename_i hmake
              obtain rfl := Except.ok.inj h
              exact makeDirectory_extends hmake
            · split_ifs at h
              obtain rfl := Except.ok.inj h
              exact .refl _ _ _
      · split_ifs at h
        obtain rfl := Except.ok.inj h
        exact .refl _ _ _

/-- Where a path starts. -/
def start (path : String) : List String := origin (Path.ofText path).isAbsolute

/-- The steps to the directory that a path lies in. -/
def parentSteps (path : String) : List String := (Path.ofText path).plainSteps.dropLast

/-- A file has been written, and besides it there are only new directories on the way to it. -/
structure Wrote (s t : Store) (path content : String) : Prop where
  read : t.read path = .ok content
  others : ∀ p, t.locate (start path) (Path.ofText path).steps ≠ .ok p → s.KeptAt t (start path) (parentSteps path) p

/-- A file is put where its path leads, unless a directory is there. -/
theorem put_eq_ok {p : Path} {content : String} (h : s.put p content = .ok t) :
    ∃ there, s.locate (origin p.isAbsolute) p.steps = .ok there ∧ namesDirectory p = false ∧
      s.get? there ≠ some .directory ∧ t = s.insert there (.file (some content)) := by
  unfold put at h
  cases hlocate : s.locate (origin p.isAbsolute) p.steps with
  | error e =>
      rw [hlocate] at h
      cases h
  | ok there =>
      rw [hlocate] at h
      simp only [bind, Except.bind] at h
      split_ifs at h with hnames
      split at h
      · cases h
      · rename_i hget
        exact ⟨there, rfl, by simpa using hnames, hget, (Except.ok.inj h).symm⟩

/-- No directory is lost to a file. -/
theorem directory_insert (h : s.get? there ≠ some .directory) (e : Entry) (p : List String)
    (hp : s.get? p = some .directory) : (s.insert there e).get? p = some .directory := by
  have hne : p ≠ there := by
    rintro rfl
    exact h hp
  rw [get?_insert_of_ne hne, hp]

/-- What has just been written at the place that a path leads to is read back from the path. -/
theorem read_insert {path content : String} (hpath : path ≠ "") (hnames : namesDirectory (Path.ofText path) = false)
    (hlocate : s.locate (start path) (Path.ofText path).steps = .ok there) (hget : s.get? there ≠ some .directory) :
    (s.insert there (.file (some content))).read path = .ok content := by
  have hfile := get?_insert_self (s := s) (isGiven_of_get? s hget) (.file (some content))
  have hplace := locate_mono (directory_insert hget (.file (some content))) hlocate
  have hslash : (Path.ofText path).endsInSlash = false := by
    simp only [namesDirectory, Bool.or_eq_false_iff] at hnames
    exact hnames.1.1
  rw [start] at hplace
  simp [read, hpath, hplace, hfile, hslash]

/-- **What a write does.** Either the file is there, or the system has refused it and no file has changed. -/
theorem write_cases (s : Store) (path content : String) :
    (∃ t, s.write path content = (t, .ok ()) ∧ s.Wrote t path content) ∨
      ∃ t e, s.write path content = (t, .error e) ∧ s.Extends t (start path) (parentSteps path) := by
  by_cases hpath : path = ""
  · exact .inr ⟨s, .noEntry, by simp [write, hpath], .refl _ _ _⟩
  cases hmake : s.makeDirectories (start path) (Path.ofText path).parentReversed with
  | error e =>
      rw [start] at hmake
      exact .inr ⟨s, e, by simp [write, hpath, hmake], .refl _ _ _⟩
  | ok d =>
      have hextends : s.Extends d (start path) (parentSteps path) := by
        have h := makeDirectories_extends hmake
        rwa [Path.parentReversed, List.tail_reverse, List.reverse_reverse] at h
      rw [start] at hmake
      cases hput : d.put (Path.ofText path) content with
      | error e => exact .inr ⟨d, e, by simp [write, hpath, hmake, hput], hextends⟩
      | ok t =>
          obtain ⟨there, hlocate, hnames, hget, rfl⟩ := put_eq_ok hput
          refine .inl ⟨_, by simp [write, hpath, hmake, hput], read_insert hpath hnames hlocate hget, ?_⟩
          intro p hp
          have hkept := directory_insert hget (.file (some content))
          have hne : p ≠ there := by
            rintro rfl
            exact hp (locate_mono hkept hlocate)
          rw [KeptAt, get?_insert_of_ne hne]
          rcases hextends p with heq | ⟨hnone, hnew, way, hway, hlocateWay⟩
          · exact .inl heq
          · exact .inr ⟨hnone, hnew, way, hway, locate_mono hkept hlocateWay⟩

end Store

/-! ## Runs

A command reads, works, and writes at most once. What the run comes to is then a matter of that one write. -/

/-- A run that ends with a failure and has changed nothing. -/
structure Fails (s : Store) (code message : String) (r : Report × Store) : Prop where
  exit : r.1.code = 1
  told : ∃ f : Failure, f.code = code ∧ f.message = message ∧ r.1.out = failureText f
  unchanged : r.2 = s

/-- A run that has a result to deliver. Without an output path the result is the output; else it is in the file, if the
system accepts the write. -/
inductive Delivered (s : Store) (content : String) : Option String → Report × Store → Prop where
  | printed {err : String} : Delivered s content none (⟨0, content, err⟩, s)
  | written {err path : String} {t : Store} : (s.write path content).2 = .ok () → s.Wrote t path content →
      Delivered s content (some path) (⟨0, "", err⟩, t)
  | refused {err path : String} {t : Store} {e : SystemError} : (s.write path content).2 = .error e →
      s.Extends t (Store.start path) (Store.parentSteps path) →
      Delivered s content (some path) (.failure (.outputRefused e) err, t)

/-- A run that makes something from a source. If there are errors they are counted and nothing is made. -/
structure Produced (s : Store) (problems : List Problem) (result : Except Failure String) (input : String)
    (output : Option String) (r : Report × Store) : Prop where
  refuses : (∃ p ∈ problems, p.level = .error) →
    Fails s "CLI_SOURCE_INVALID" (toString (problems.countP fun p => p.level = .error) ++ " error(s) in " ++ input) r
  delivers : (∀ p ∈ problems, p.level ≠ .error) → ∃ content, result = .ok content ∧ Delivered s content output r

/-- What is promised of a run of a request on a source. -/
def Request.Promise (s : Store) (source : String) (r : Report × Store) : Request → Prop
  | .toXml input output _ =>
    Produced s (documentOfText source).problems (documentOfText source).result input output r ∧
      ∀ f : Failure, r.1.code = 1 → r.1.out = failureText f →
        f.code = "CLI_SOURCE_INVALID" ∨ f.code = "CLI_OUTPUT_WRITE"
  | .toText _ output =>
    (∀ text, textOfDocument source = .ok text → Delivered s text output r) ∧
      ∀ f, textOfDocument source = .error f → Fails s f.code f.message r
  | .check .. =>
    r.2 = s ∧ (r.1.code = 1 ↔ ∃ p ∈ (resolvedTreeOfText source).problems, p.level = .error) ∧
      (r.1.code = 0 ↔ ∀ p ∈ (resolvedTreeOfText source).problems, p.level ≠ .error)
  | .format input output =>
    Produced s (formatText source).problems (.ok (formatText source).result) input output r
  | .help => r = (⟨0, "", ""⟩, s)

section Runs

variable {s : Store}

theorem Store.run_read (s : Store) (path : String) : (access.read path).run s = (s.read path, s) := rfl

theorem Store.run_write (s : Store) (path content : String) :
    (access.write path content).run s = ((s.write path content).2, (s.write path content).1) := rfl

/-- The report of a failure tells of it. -/
theorem fails_failure (s : Store) (f : Failure) (err : String) : Fails s f.code f.message (.failure f err, s) :=
  ⟨rfl, ⟨f, rfl, rfl, rfl⟩, rfl⟩

/-- Delivering a result prints it or writes it, and in the second case the system may refuse. -/
theorem deliver_delivered (s : Store) (output : Option String) (err content : String) :
    Delivered s content output ((deliver Store.access output err content).run s) := by
  cases output with
  | none => exact .printed
  | some path =>
      rw [deliver, StateT.run_bind, Store.run_write]
      rcases s.write_cases path content with ⟨t, hwrite, hwrote⟩ | ⟨t, e, hwrite, hextends⟩
      · rw [hwrite]
        exact .written (by rw [hwrite]) hwrote
      · rw [hwrite]
        exact .refused (by rw [hwrite]) hextends

/-- No failure has a code of several lines. -/
theorem newline_notMem_code (f : Failure) : '\n' ∉ f.code.toList := by
  cases f <;> simp [Failure.code]

/-- The code of a failure can be read off the lines that tell of it. -/
theorem code_eq_of_failureText {f g : Failure} (h : failureText f = failureText g) : f.code = g.code := by
  have hsplit : ∀ f : Failure, ∃ rest, (failureText f).toList =
      "RESULT:ERROR\nERROR_CODE:".toList ++ (f.code.toList ++ '\n' :: rest) := by
    intro f
    unfold failureText lines
    simp
  have htake : ∀ (f : Failure) (rest : List Char),
      (f.code.toList ++ '\n' :: rest).takeWhile (· != '\n') = f.code.toList := by
    intro f rest
    have hcode : ∀ c ∈ f.code.toList, (c != '\n') = true := by
      intro c hc
      have hne : c ≠ '\n' := fun heq => newline_notMem_code f (heq ▸ hc)
      simpa using hne
    rw [List.takeWhile_append_of_pos hcode]
    simp
  obtain ⟨rest, hf⟩ := hsplit f
  obtain ⟨rest', hg⟩ := hsplit g
  rw [h, hg] at hf
  have hcodes := congrArg (List.takeWhile (· != '\n')) (List.append_cancel_left hf)
  rw [htake, htake] at hcodes
  exact (String.toList_inj.mp hcodes).symm

theorem hasErrors_iff (problems : List Problem) :
    (⟨problems⟩ : Log).hasErrors = true ↔ ∃ p ∈ problems, p.level = .error := by
  simp [Log.hasErrors]

/-- No level is above that of errors. -/
theorem length_filtered_error (problems : List Problem) :
    ((⟨problems⟩ : Log).filtered .error).length = problems.countP fun p => p.level = .error := by
  rw [Log.filtered, ← List.countP_eq_length_filter]
  apply List.countP_congr
  intro p _
  cases p.level <;> decide

/-- A run with problems counts the errors among them and stops; without errors it delivers its result, which then
exists. -/
theorem deliverChecked_produced (s : Store) {problems : List Problem} {result : Except Failure String}
    (hresult : (∀ p ∈ problems, p.level ≠ .error) → ∃ content, result = .ok content) (input : String)
    (output : Option String) (least : Level) :
    Produced s problems result input output
      ((deliverChecked Store.access input output least problems result).run s) := by
  constructor
  · intro herrors
    unfold deliverChecked
    rw [if_pos ((hasErrors_iff problems).mpr herrors), length_filtered_error]
    exact fails_failure s (.invalidSource _ input) _
  · intro hnone
    obtain ⟨content, rfl⟩ := hresult hnone
    have herrors : ¬ (⟨problems⟩ : Log).hasErrors = true := by
      rw [hasErrors_iff]
      rintro ⟨p, hp, hlevel⟩
      exact hnone p hp hlevel
    unfold deliverChecked
    rw [if_neg herrors]
    exact ⟨content, rfl, deliver_delivered s output _ content⟩

/-- The failures of a run that makes something are not those of making it. -/
theorem Produced.code_of_failure {problems : List Problem} {result : Except Failure String} {input : String}
    {output : Option String} {r : Report × Store} (h : Produced s problems result input output r) {f : Failure}
    (hcode : r.1.code = 1) (hout : r.1.out = failureText f) :
    f.code = "CLI_SOURCE_INVALID" ∨ f.code = "CLI_OUTPUT_WRITE" := by
  by_cases herrors : ∃ p ∈ problems, p.level = .error
  · obtain ⟨_, ⟨g, hg, _, htold⟩, _⟩ := h.refuses herrors
    exact .inl ((code_eq_of_failureText (hout.symm.trans htold)).trans hg)
  · have hnone : ∀ p ∈ problems, p.level ≠ .error := fun p hp hlevel => herrors ⟨p, hp, hlevel⟩
    obtain ⟨content, _, hdelivered⟩ := h.delivers hnone
    cases hdelivered with
    | printed => cases hcode
    | written => cases hcode
    | @refused _ _ _ e =>
        have hcodes : (Failure.outputRefused e).code = f.code := code_eq_of_failureText hout
        exact .inr hcodes.symm

/-- Neither the level of what is shown nor its form has a say in how a check ends. -/
theorem checkReport_code (input source : String) (least : Level) (json : Bool) :
    ((checkReport input source least json).code = 1 ↔ ∃ p ∈ (resolvedTreeOfText source).problems, p.level = .error) ∧
      ((checkReport input source least json).code = 0 ↔
        ∀ p ∈ (resolvedTreeOfText source).problems, p.level ≠ .error) := by
  have hiff := hasErrors_iff (resolvedTreeOfText source).problems
  by_cases herrors : ∃ p ∈ (resolvedTreeOfText source).problems, p.level = .error
  · have hcode : (checkReport input source least json).code = 1 := by
      rw [checkReport, if_pos (hiff.mpr herrors)]
    simpa [hcode] using herrors
  · have hcode : (checkReport input source least json).code = 0 := by
      rw [checkReport, if_neg (hiff.not.mpr herrors)]
    simpa [hcode] using herrors

/-- A run that ends well has written its file. -/
theorem Delivered.wrote {content path : String} {r : Report × Store} (h : Delivered s content (some path) r)
    (hcode : r.1.code = 0) : s.Wrote r.2 path content := by
  cases h with
  | written _ hwrote => exact hwrote
  | refused => cases hcode

/-- A request that finds its file is carried out on what the file says. -/
theorem run_eq_apply {words : List String} {request : Request} {input source : String}
    (hrequest : Request.ofArguments words = some request) (hinput : request.input? = some input)
    (hread : s.read input = .ok source) :
    (run Store.access words).run s = (request.apply Store.access source).run s := by
  simp only [run, hrequest, hinput]
  rw [StateT.run_bind, Store.run_read, hread]
  rfl

/-- Every request keeps its promise on every source, one case for each request. -/
theorem Request.apply_promise (request : Request) (s : Store) (source : String) :
    request.Promise s source ((request.apply Store.access source).run s) := by
  cases request with
  | toXml input output least =>
      have hproblems : (documentOfText source).problems = (resolvedTreeOfText source).problems := by rw [documentOfText]
      have hdocument : (∀ p ∈ (documentOfText source).problems, p.level ≠ .error) →
          ∃ document, (documentOfText source).result = .ok document := by
        rw [hproblems]
        exact Valid.exists_document
      have hproduced := deliverChecked_produced s hdocument input output least
      exact ⟨hproduced, fun f => hproduced.code_of_failure⟩
  | toText input output =>
      constructor
      · intro text htext
        unfold apply
        rw [htext]
        exact deliver_delivered s output "" text
      · intro f hf
        unfold apply
        rw [hf]
        exact fails_failure s f ""
  | check input least json =>
      exact ⟨rfl, checkReport_code input source least json⟩
  | format input output =>
      unfold apply
      exact deliverChecked_produced s (fun _ => ⟨_, rfl⟩) input output .warning
  | help => rfl

end Runs

/-- **Commands write all or nothing.** Let a command line be a request whose input is a file of text. A conversion to
a document and formatting leave the store as it is and fail, with the number of errors, if the source has errors.
Otherwise there is a result, and it is the output, or the file at the output path if the system accepts it; nothing else
changes but for directories on the way. So no failure of the export is ever told. A conversion to a text delivers its
result likewise, or fails with what is wrong with the document. A check changes nothing and tells by its code whether
there are errors. -/
theorem commands_write_all_or_nothing (words : List String) (request : Request) (input source : String) (s : Store)
    (hrequest : Request.ofArguments words = some request) (hinput : request.input? = some input)
    (hread : s.read input = .ok source) : request.Promise s source ((run Store.access words).run s) := by
  rw [run_eq_apply hrequest hinput hread]
  exact request.apply_promise s source

/-- A document goes to a file in directories that are not there yet, behind a step out of one of them. -/
theorem commands_write_into_new_directories :
    let source := "#program \"p\"\nvar n\n\x7b\n  n = 1\n\x7d\n"
    let s : Store := ⟨[(["p"], .file (some source)), (["keep"], .file none)]⟩
    let words := ["to-xml", "--output=a/b/../p.xml", "--input", "./p", "--min-level", "error"]
    Request.ofArguments words = some (.toXml "./p" (some "a/b/../p.xml") .error) ∧
      s.read "./p" = .ok source ∧
      ∃ document, (documentOfText source).result = .ok document ∧
        s.Wrote ((run Store.access words).run s).2 "a/b/../p.xml" document := by
  intro source s words
  have hrequest : Request.ofArguments words = some (.toXml "./p" (some "a/b/../p.xml") .error) := by
    decide +kernel
  have hread : s.read "./p" = .ok source := by decide +kernel
  have hvalid : Valid source := by
    rw [Valid, resolvedTreeOfText, treeOfText_eq_chars]
    decide +kernel
  have hcode : ((run Store.access words).run s).1.code = 0 := by
    decide +kernel
  obtain ⟨⟨_, hdelivers⟩, _⟩ := commands_write_all_or_nothing words _ "./p" source s hrequest rfl hread
  obtain ⟨document, hdocument, hdelivered⟩ := hdelivers hvalid
  exact ⟨hrequest, hread, document, hdocument, hdelivered.wrote hcode⟩

end FlightScript.Command
