import Makewright.Makefile
import Makewright.Proofs.Path

/-!
# Histories of a Makefile

A Makefile is written by operations that may fail: a rule may be asked for twice, a rule that is to
be changed may be missing, and the writer of a head block may fail after some lines. In any history
of operations, those that fail leave the Makefile as it was, so the others are carried out on the
same Makefiles as if the failing ones had never been called (`operations_atomic`). The exception is
a writer that fails under a new key: its lines stay, and the key is taken from then on
(`LeavesBlock`).
-/

set_option autoImplicit false

namespace Makewright.Makefile

/-- A use of a Makefile. -/
inductive Operation
  | head (key : String) (block : HeadBlock)
  | start (target : String) (prerequisites : List String)
  | phony (name : String)
  | require (target : String) (names : List String)
  | line (target command : String)

/-- What an operation answers: whether it has written a head block, the rule that it has started, or
nothing. -/
inductive Answer
  | written (isNew : Bool)
  | started (rule : Rule)
  | done

/-- Change the rule for a target, which has to be there. -/
def change (m : Makefile) (target : String) (edit : Rule → Rule) :
    Except BuildError Answer × Makefile :=
  match m.rule? target with
  | some _ => (.ok .done, m.modifyRule target edit)
  | none => (.error .unknownName, m)

namespace Operation

/-- What an operation answers, and the Makefile that it leaves. -/
def run (m : Makefile) : Operation → Except BuildError Answer × Makefile
  | head key block =>
    let (outcome, left) := m.writeHead key block
    (outcome.map .written, left)
  | start target prerequisites =>
    let rule := Rule.start target prerequisites
    match m.addRule rule with
    | .ok left => (.ok (.started rule), left)
    | .error e => (.error e, m)
  | phony name => (.ok .done, m.addPhony name)
  | require target names => m.change target (·.addPrerequisites names)
  | line target command => m.change target (·.addCommand command)

/-- The operation fails. -/
def fails (m : Makefile) (op : Operation) : Bool :=
  match (op.run m).1 with
  | .ok _ => false
  | .error _ => true

/-- The operation calls the writer of a head block, and the writer fails. -/
def breaks (m : Makefile) : Operation → Bool
  | head key block => !m.hasHead key && block.failure.isSome
  | start .. | phony _ | require .. | line .. => false

end Operation

/-- The steps of a history: each operation with the Makefile that it is carried out on. -/
def steps (m : Makefile) : List Operation → List (Makefile × Operation)
  | [] => []
  | op :: rest => (m, op) :: steps (op.run m).2 rest

/-- The Makefile that a history leaves. -/
def runAll (m : Makefile) (ops : List Operation) : Makefile :=
  ops.foldl (fun m op => (op.run m).2) m

/-- The operation of a step fails, and not because of a writer. -/
def isIdle (step : Makefile × Operation) : Bool :=
  step.2.fails step.1 && !step.2.breaks step.1

/-- The operations of a history without the idle ones. -/
def effective (m : Makefile) (ops : List Operation) : List Operation :=
  ((m.steps ops).filter fun step => !isIdle step).map Prod.snd

/-- What the writer of a head block leaves when it fails under a new key. The block of its lines
stands there as if it had not failed, so the text shows it unless there are no lines. The key stays
taken: whatever is done from then on, no writer is called for it, and the Makefile stays as it
is. -/
structure LeavesBlock (m : Makefile) (key : String) (block : HeadBlock) (left : Makefile) :
    Prop where
  kept : left = m.addHead key block.lines
  text : left.serialize = m.serialize ↔ block.lines = []
  taken : ∀ rest retry, (Operation.head key retry).run (left.runAll rest) =
    (.ok (.written false), left.runAll rest)

variable {m : Makefile} {op : Operation} {key : String} {block : HeadBlock}

/-! ## One operation -/

theorem addHead_of_free (hkey : m.hasHead key = false) (lines : List String) :
    m.addHead key lines = { m with heads := m.heads ++ [(key, lines)] } := by
  simp [addHead, writeHead, hkey]

/-- A new head block changes the Makefile. -/
theorem addHead_ne (hkey : m.hasHead key = false) (lines : List String) :
    m.addHead key lines ≠ m := by
  rw [addHead_of_free hkey]
  intro hsame
  have hlength := congrArg (fun m => m.heads.length) hsame
  simp at hlength

theorem change_snd_of_error {target : String} {edit : Rule → Rule} {e : BuildError}
    (h : (m.change target edit).1 = .error e) : (m.change target edit).2 = m := by
  unfold change at *
  cases hrule : m.rule? target with
  | none => rfl
  | some rule =>
    rw [hrule] at h
    cases h

/-- An operation that fails leaves the Makefile as it was, unless it is a writer that fails: its
lines stay as those of one that does not. -/
theorem run_of_fails (h : op.fails m = true) :
    op.breaks m = false ∧ (op.run m).2 = m ∨
      op.breaks m = true ∧ ∃ key block, op = .head key block ∧ m.hasHead key = false ∧
        (op.run m).2 = m.addHead key block.lines := by
  obtain ⟨e, he⟩ : ∃ e, (op.run m).1 = .error e := by
    unfold Operation.fails at h
    cases hrun : (op.run m).1 with
    | ok answer => simp [hrun] at h
    | error e => exact ⟨e, rfl⟩
  cases op with
  | head key block =>
    cases hkey : m.hasHead key with
    | true => simp [Operation.run, writeHead, hkey, Except.map] at he
    | false =>
      cases hfailure : block.failure with
      | none => simp [Operation.run, writeHead, hkey, hfailure, Except.map] at he
      | some e =>
        -- the key is entered before the block is run, so a block that fails leaves it behind
        refine .inr ⟨by simp [Operation.breaks, hkey, hfailure], key, block, rfl, hkey, ?_⟩
        rw [addHead_of_free hkey]
        simp [Operation.run, writeHead, hkey, hfailure]
  | start target prerequisites =>
    refine .inl ⟨rfl, ?_⟩
    cases hrule : m.addRule (Rule.start target prerequisites) with
    | ok left => simp [Operation.run, hrule] at he
    | error e => simp [Operation.run, hrule]
  | phony name => cases he
  | require target names => exact .inl ⟨rfl, change_snd_of_error he⟩
  | line target command => exact .inl ⟨rfl, change_snd_of_error he⟩

theorem run_eq_self_iff (h : op.fails m = true) : (op.run m).2 = m ↔ op.breaks m = false := by
  rcases run_of_fails h with ⟨hbreaks, hsame⟩ | ⟨hbreaks, key, block, rfl, hkey, hleft⟩
  · simp [hbreaks, hsame]
  · simp [hbreaks, hleft, addHead_ne hkey]

/-! ## Histories -/

@[simp]
theorem runAll_cons (m : Makefile) (op : Operation) (rest : List Operation) :
    m.runAll (op :: rest) = (op.run m).2.runAll rest := rfl

/-- Without the idle operations, a history consists of the same steps but the idle ones. -/
theorem steps_effective (m : Makefile) (ops : List Operation) :
    m.steps (m.effective ops) = (m.steps ops).filter (fun step => !isIdle step) ∧
      m.runAll (m.effective ops) = m.runAll ops := by
  induction ops generalizing m with
  | nil => exact ⟨rfl, rfl⟩
  | cons op rest ih =>
    obtain ⟨hsteps, hleft⟩ := ih (op.run m).2
    cases hidle : isIdle (m, op) with
    | true =>
      -- the operation leaves the Makefile as it was, so the history goes on without it
      have hfails := Bool.and_eq_true_iff.1 hidle
      have hsame : (op.run m).2 = m := (run_eq_self_iff hfails.1).2 (by simpa using hfails.2)
      have heffective : m.effective (op :: rest) = m.effective rest := by
        simp [effective, steps, hidle, hsame]
      rw [hsame] at hsteps hleft
      rw [heffective, runAll_cons, hsame, hsteps]
      exact ⟨by simp [steps, hidle, hsame], hleft⟩
    | false =>
      have heffective : m.effective (op :: rest) = op :: (op.run m).2.effective rest := by
        simp [effective, steps, hidle]
      rw [heffective, runAll_cons, runAll_cons, steps, hsteps]
      exact ⟨by simp [steps, hidle], hleft⟩

/-! ## What stays -/

/-- The header stays, head blocks and phony names stay where they are, and the install rule keeps
its target. -/
structure Grows (m left : Makefile) : Prop where
  header : left.header = m.header
  heads : m.heads <+: left.heads
  phony : m.phony <+: left.phony
  install : left.install.target = m.install.target

theorem Grows.refl (m : Makefile) : Grows m m :=
  ⟨rfl, List.prefix_rfl, List.prefix_rfl, rfl⟩

theorem Grows.trans {m between left : Makefile} (h : Grows m between) (h' : Grows between left) :
    Grows m left :=
  ⟨h'.header.trans h.header, h.heads.trans h'.heads, h.phony.trans h'.phony,
    h'.install.trans h.install⟩

theorem grows_change (target : String) {edit : Rule → Rule}
    (hedit : ∀ rule, (edit rule).target = rule.target) : Grows m (m.change target edit).2 := by
  unfold change
  cases m.rule? target with
  | none => exact .refl m
  | some rule =>
    simp only [modifyRule]
    split_ifs
    · exact ⟨rfl, List.prefix_rfl, List.prefix_rfl, hedit m.install⟩
    · exact ⟨rfl, List.prefix_rfl, List.prefix_rfl, rfl⟩

theorem grows_run (m : Makefile) (op : Operation) : Grows m (op.run m).2 := by
  cases op with
  | head key block =>
    cases hkey : m.hasHead key with
    | true => simpa [Operation.run, writeHead, hkey] using Grows.refl m
    | false =>
      have hleft : ((Operation.head key block).run m).2 = m.addHead key block.lines := by
        cases hfailure : block.failure <;> simp [Operation.run, writeHead, addHead, hkey, hfailure]
      rw [hleft, addHead_of_free hkey]
      exact ⟨rfl, List.prefix_append _ _, List.prefix_rfl, rfl⟩
  | start target prerequisites =>
    simp only [Operation.run, addRule]
    split_ifs
    · exact .refl m
    · exact ⟨rfl, List.prefix_rfl, List.prefix_rfl, rfl⟩
  | phony name =>
    refine ⟨rfl, List.prefix_rfl, ?_, rfl⟩
    simp only [Operation.run, addPhony, addOnce]
    split_ifs
    · exact List.prefix_rfl
    · exact List.prefix_append _ _
  | require target names => exact grows_change target fun _ => rfl
  | line target command => exact grows_change target fun _ => rfl

theorem grows_runAll (m : Makefile) (ops : List Operation) : Grows m (m.runAll ops) := by
  induction ops generalizing m with
  | nil => exact .refl m
  | cons op rest ih => exact (grows_run m op).trans (ih _)

theorem hasHead_runAll (ops : List Operation) (h : m.hasHead key = true) :
    (m.runAll ops).hasHead key = true := by
  obtain ⟨more, hmore⟩ := (grows_runAll m ops).heads
  rw [hasHead] at h
  rw [hasHead, ← hmore, List.any_append, h, Bool.true_or]

/-! ## A writer that fails -/

/-- A text between others shows. -/
theorem length_intercalate_insert {α : Type} (sep x : List α) (front : List (List α))
    (back : List (List α)) (hback : back ≠ []) :
    (sep.intercalate (front ++ x :: back)).length =
      (sep.intercalate (front ++ back)).length + x.length + sep.length := by
  by_cases hfront : front = []
  · rw [hfront, List.nil_append, List.nil_append, List.intercalate_cons_of_ne_nil hback]
    simp only [List.length_append]
    omega
  · rw [Text.intercalate_append sep hfront (List.cons_ne_nil x back),
      Text.intercalate_append sep hfront hback, List.intercalate_cons_of_ne_nil hback]
    simp only [List.length_append]
    omega

/-- The text shows a new head block unless the block has no lines. -/
theorem serialize_addHead_iff (hkey : m.hasHead key = false) (lines : List String) :
    (m.addHead key lines).serialize = m.serialize ↔ lines = [] := by
  rw [addHead_of_free hkey]
  constructor
  · intro hsame
    by_contra hlines
    have hchunks : headChunks { m with heads := m.heads ++ [(key, lines)] } =
        m.headChunks ++ ["\n".intercalate lines ++ "\n"] := by
      simp [headChunks, hlines]
    -- the new block stands in front of the rules and makes the text longer
    have hlonger := length_intercalate_insert ['\n'] ("\n".intercalate lines ++ "\n").toList
      ((m.headerChunk ++ m.headChunks).map String.toList)
      ((m.allRules.map Rule.render ++ [m.phonyLine]).map String.toList) (by simp)
    have hlength := congrArg (fun text : String => text.toList.length) hsame
    simp only [serialize, String.toList_intercalate, hchunks] at hlength
    simp only [headerChunk, allRules, phonyLine, List.map_append, List.map_cons, List.map_nil,
      List.append_assoc, List.cons_append, List.nil_append] at hlength hlonger
    rw [show "\n".toList = ['\n'] from rfl] at hlength
    simp only [List.length_singleton] at hlonger
    omega
  · rintro rfl
    simp [serialize, headChunks, headerChunk, allRules, phonyLine]

/-- What is left by a writer that fails. -/
theorem leavesBlock_of_breaks (hbreaks : (Operation.head key block).breaks m = true) :
    LeavesBlock m key block ((Operation.head key block).run m).2 := by
  simp only [Operation.breaks, Bool.and_eq_true, Bool.not_eq_true', Option.isSome_iff_exists]
    at hbreaks
  obtain ⟨hkey, e, hfailure⟩ := hbreaks
  have hleft : ((Operation.head key block).run m).2 = m.addHead key block.lines := by
    simp [Operation.run, writeHead, addHead, hkey, hfailure]
  rw [hleft]
  refine ⟨rfl, serialize_addHead_iff hkey block.lines, ?_⟩
  intro rest retry
  have htaken : (m.addHead key block.lines).hasHead key = true := by
    simp [addHead_of_free hkey, hasHead]
  simp [Operation.run, writeHead, hasHead_runAll rest htaken, Except.map]

/-! ## The result -/

/-- In any history of a Makefile, the operations that fail can be left out, other than writers that
fail: the rest are the same operations on the same Makefiles, and the same Makefile is left. An
operation that fails leaves its Makefile as it was exactly if it is not a writer that fails, and
what such a writer leaves is the block of its lines. -/
theorem operations_atomic (m : Makefile) (ops : List Operation) :
    m.steps (m.effective ops) = (m.steps ops).filter (fun step => !isIdle step) ∧
      m.runAll (m.effective ops) = m.runAll ops ∧
      ∀ step ∈ m.steps ops, step.2.fails step.1 = true →
        ((step.2.run step.1).2 = step.1 ↔ step.2.breaks step.1 = false) ∧
        ∀ key block, step.2 = .head key block → step.2.breaks step.1 = true →
          LeavesBlock step.1 key block (step.2.run step.1).2 := by
  obtain ⟨hsteps, hleft⟩ := steps_effective m ops
  refine ⟨hsteps, hleft, ?_⟩
  rintro ⟨m', op⟩ - hfails
  refine ⟨run_eq_self_iff hfails, ?_⟩
  rintro key block rfl hbreaks
  exact leavesBlock_of_breaks hbreaks

/-- A writer that fails on a new Makefile changes its text, and the block that is written on the
next try is not there. -/
theorem operations_leave_block :
    let broken := Operation.head "k" ⟨["A"], some (.custom "writer failed")⟩
    let retry := Operation.head "k" ⟨["B"], none⟩
    let m := new none
    let left := (broken.run m).2
    broken.fails m = true ∧ left.serialize ≠ m.serialize ∧
      (retry.run m).1 = .ok (.written true) ∧ retry.run left = (.ok (.written false), left) := by
  have hbreaks : (Operation.head "k" ⟨["A"], some (.custom "writer failed")⟩).breaks (new none) =
      true := by decide
  have hleaves := leavesBlock_of_breaks hbreaks
  refine ⟨rfl, fun hsame => ?_, rfl, hleaves.taken [] _⟩
  exact List.cons_ne_nil _ _ (hleaves.text.1 hsame)

end Makewright.Makefile
