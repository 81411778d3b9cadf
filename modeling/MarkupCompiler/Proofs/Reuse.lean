import MarkupCompiler.Proofs.Writing
import MarkupCompiler.Workbench

/-!
# Tools that are used again

A writer that stopped midway keeps what it wrote and the blocks it opened, and a normalizer keeps
its count. None of that shows later: whatever tools have been used for, each use of them comes to
what it would come to with new ones (`uses_eq_map_renewed`).
-/

namespace MarkupCompiler.Workbench

inductive Use where
  | normalize (root : Element)
  | generate (root : Element)
  | generateCall (e : Element)

/-- What a use comes to: its result, the events that it notes, and the tree that it leaves. -/
inductive Answer where
  | normalized (root : Element) (run : Traced Unit)
  | generated (code : Traced Text)
  | call (code : Except Stop Text)

def use (b : Workbench) : Use → Answer × Workbench
  | .normalize root =>
    let (root, run, b) := b.normalize root
    (.normalized root run, b)
  | .generate root =>
    let (code, b) := b.generate root
    (.generated code, b)
  | .generateCall e =>
    let (code, b) := b.generateCall e
    (.call code, b)

def uses (b : Workbench) : List Use → List Answer
  | [] => []
  | u :: later => (b.use u).1 :: (b.use u).2.uses later

/-- New tools with the settings of the old ones. -/
def renewed (b : Workbench) : Workbench where
  options := b.options
  normalizer := { viewModel := b.normalizer.viewModel }

theorem use_fst_renewed (b : Workbench) (u : Use) : (b.use u).1 = (b.renewed.use u).1 := by
  cases u with
  | normalize root => rfl
  | generate root => rfl
  | generateCall e =>
    -- open blocks stay open here, but a call has no line break that would show them
    have hcall : (b.writer.generateCall b.options.target e).1 =
        (({} : Writer).generateCall b.options.target e).1 := by
      rw [generateCall_eq, generateCall_eq]
    exact congrArg Answer.call hcall

theorem renewed_use (b : Workbench) (u : Use) : (b.use u).2.renewed = b.renewed := by
  cases u with
  | normalize root =>
    simp only [use, normalize, Normalizer.run]
    split <;> rfl
  | generate root => rfl
  | generateCall e => rfl

/-- **No history.** However often tools are used and wherever they stop, each answer is the one that
new tools with the same settings give. -/
theorem uses_eq_map_renewed (b : Workbench) (us : List Use) :
    b.uses us = us.map fun u => (b.renewed.use u).1 := by
  induction us generalizing b with
  | nil => rfl
  | cons u later ih => rw [uses, ih, renewed_use, use_fst_renewed, List.map_cons]

/-- A module that could not be finished does leave a block open. -/
example : (({} : Workbench).use (.generate { kind := .repetition })).2.writer.depth = 1 := by
  decide

end MarkupCompiler.Workbench
