import MarkupCompiler.Proofs.Interruption
import MarkupCompiler.Proofs.Literals

/-!
# Normalizing a tree again

Attributes are normalized from their raw texts, which a run leaves alone, so that a second run finds
what the first one found. Texts are normalized from what they hold, so that every run adds to them:
one more reading from the view model, or one more pair of quotes (`runs_of_ok`).
-/

namespace MarkupCompiler

open Text

/-- The text of a literal that stands alone. -/
def Text.unquote? (cs : Text) : Option Text :=
  match readLiteral cs with
  | some (text, []) => some text
  | _ => none

/-- A text after a number of runs. -/
def TextRun.afterRuns (viewModel : Text) (n : Nat) (run : TextRun) : TextRun :=
  match run.kind with
  | .interpolation =>
    { run with content := (List.replicate n (viewModel ++ ['.'])).flatten ++ run.content }
  | .plain => { run with content := quote^[n] run.content }

/-- An entry after one run or more. -/
def Entry.afterRuns (viewModel : Text) (n : Nat) : Entry → Entry
  | .attribute a => .attribute (a.normalized viewModel)
  | .text run => .text (run.afterRuns viewModel n)

def Entry.attribute? : Entry → Option Attribute
  | .attribute a => some a
  | .text _ => none

/-- A number of runs on one tree, one after another: the tree that they leave, the runs, and the
normalizer after them. -/
def Normalizer.runs (m : Normalizer) (root : Element) :
    Nat → Element × List (Traced Unit) × Normalizer
  | 0 => (root, [], m)
  | n + 1 =>
    let (root, earlier, m) := m.runs root n
    let (root, run, m) := m.run root
    (root, earlier ++ [run], m)

/-! ### One entry -/

theorem Attribute.raw_normalized (viewModel : Text) (a : Attribute) :
    (a.normalized viewModel).raw = a.raw := by
  unfold Attribute.normalized
  split <;> rfl

theorem Attribute.normalized_normalized (viewModel : Text) (a : Attribute) :
    (a.normalized viewModel).normalized viewModel = a.normalized viewModel := by
  obtain ⟨isDynamic, raw, field, value, location⟩ := a
  cases isDynamic <;> rfl

theorem TextRun.normalize_afterRuns (viewModel : Text) (n : Nat) (run : TextRun) :
    (run.afterRuns viewModel n).normalize viewModel = run.afterRuns viewModel (n + 1) := by
  obtain ⟨kind, content, location⟩ := run
  cases kind with
  | plain =>
    simp only [TextRun.afterRuns, TextRun.normalize]
    rw [Function.iterate_succ_apply']
  | interpolation =>
    simp only [TextRun.afterRuns, TextRun.normalize]
    rw [readFrom, List.replicate_succ, List.flatten_cons]
    simp

namespace Entry

theorem normalized_eq_afterRuns (viewModel : Text) :
    ∀ entry : Entry, entry.normalized viewModel = entry.afterRuns viewModel 1
  | .attribute _ => rfl
  | .text ⟨.plain, _, _⟩ => rfl
  | .text ⟨.interpolation, content, _⟩ => by
    simp [normalized, afterRuns, TextRun.normalize, TextRun.afterRuns, readFrom]

theorem normalized_afterRuns (viewModel : Text) (n : Nat) :
    ∀ entry : Entry,
      (entry.afterRuns viewModel n).normalized viewModel = entry.afterRuns viewModel (n + 1)
  | .attribute a => congrArg Entry.attribute (a.normalized_normalized viewModel)
  | .text run => congrArg Entry.text (run.normalize_afterRuns viewModel n)

theorem IsAssigned.afterRuns (viewModel : Text) (n : Nat) :
    ∀ {entry : Entry}, entry.IsAssigned → (entry.afterRuns viewModel n).IsAssigned
  | .attribute a, hraw => by
    change '=' ∈ (a.normalized viewModel).raw
    rw [a.raw_normalized]
    exact hraw
  | .text _, _ => trivial

/-- What has become of an attribute does not show the number of runs. -/
theorem filterMap_attribute?_afterRuns (viewModel : Text) (n : Nat) (entries : List Entry) :
    (entries.map (Entry.afterRuns viewModel n)).filterMap attribute? =
      (entries.filterMap attribute?).map (Attribute.normalized viewModel) := by
  rw [List.filterMap_map, List.map_filterMap]
  congr 1
  funext entry
  cases entry <;> rfl

end Entry

/-! ### Decoding -/

namespace Text

theorem unquote?_quote (cs : Text) : unquote? (quote cs) = some cs := by
  have hread := readLiteral_quote cs []
  rw [List.append_nil] at hread
  rw [unquote?, hread]

theorem iterate_unquote?_quote (n : Nat) (cs : Text) :
    (fun text? => text?.bind unquote?)^[n] (some (quote^[n] cs)) = some cs := by
  induction n with
  | zero => rfl
  | succ n ih =>
    rw [Function.iterate_succ_apply, Function.iterate_succ_apply', Option.bind_some,
      unquote?_quote, ih]

end Text

/-! ### One run after another -/

namespace Normalizer

theorem viewModel_run (m : Normalizer) (root : Element) :
    (m.run root).2.2.viewModel = m.viewModel := by
  rw [run]
  dsimp only
  split <;> rfl

theorem settles_run (m : Normalizer) (root : Element) :
    ∃ stop, Settles m.viewModel root.toNode.entries (m.run root).1.toNode.entries stop ∧
      (m.run root).2.1.outcome = stop.elim (.ok ()) .error := by
  refine ⟨_, ?_, m.run_outcome root⟩
  rw [m.run_fst root]
  exact root.toNode.settles_normalize m.viewModel

theorem assigned_of_run {m : Normalizer} {root : Element}
    (hok : (m.run root).2.1.outcome = .ok ()) :
    ∀ entry ∈ root.toNode.entries, entry.IsAssigned := by
  obtain ⟨stop, hsettles, houtcome⟩ := m.settles_run root
  rw [hok] at houtcome
  generalize root.toNode.entries = before, (m.run root).1.toNode.entries = after at hsettles
  cases hsettles with
  | finished hassigned => exact hassigned
  | stopped => cases houtcome

theorem run_of_assigned (m : Normalizer) {root : Element}
    (hassigned : ∀ entry ∈ root.toNode.entries, entry.IsAssigned) :
    (m.run root).2.1.outcome = .ok () ∧
      (m.run root).1.toNode.entries = root.toNode.entries.map (Entry.normalized m.viewModel) := by
  obtain ⟨stop, hsettles, houtcome⟩ := m.settles_run root
  generalize root.toNode.entries = before, (m.run root).1.toNode.entries = after
    at hsettles hassigned ⊢
  cases hsettles with
  | finished => exact ⟨houtcome, rfl⟩
  | @stopped front back a _ hraw =>
    exact absurd (hassigned (.attribute a) (by simp)) hraw

theorem cleared_run (m : Normalizer) (root : Element) :
    (m.run root).1.toNode.cleared = root.toNode.cleared := by
  rw [m.run_fst root]
  exact root.toNode.cleared_normalize m.viewModel

/-- What holds after some runs and passes through one more. -/
structure RunsTo (m : Normalizer) (root : Element) (n : Nat) : Prop where
  outcomes : (m.runs root n).2.1.map Traced.outcome = List.replicate n (.ok ())
  entries : (m.runs root n).1.toNode.entries =
    root.toNode.entries.map (Entry.afterRuns m.viewModel n)
  cleared : (m.runs root n).1.toNode.cleared = root.toNode.cleared
  viewModel : (m.runs root n).2.2.viewModel = m.viewModel

theorem runsTo_one (m : Normalizer) {root : Element}
    (hassigned : ∀ entry ∈ root.toNode.entries, entry.IsAssigned) : m.RunsTo root 1 := by
  obtain ⟨hok, hentries⟩ := m.run_of_assigned hassigned
  refine ⟨congrArg (fun outcome => [outcome]) hok, ?_, m.cleared_run root, m.viewModel_run root⟩
  rw [runs, runs, hentries]
  exact List.map_congr_left fun entry _ => entry.normalized_eq_afterRuns m.viewModel

theorem RunsTo.succ {m : Normalizer} {root : Element} {n : Nat} (hruns : m.RunsTo root n)
    (hassigned : ∀ entry ∈ root.toNode.entries, entry.IsAssigned) : m.RunsTo root (n + 1) := by
  obtain ⟨houtcomes, hentries, hcleared, hviewModel⟩ := hruns
  have hstill : ∀ entry ∈ (m.runs root n).1.toNode.entries, entry.IsAssigned := by
    rw [hentries]
    exact List.forall_mem_map.mpr fun entry hentry =>
      (hassigned entry hentry).afterRuns m.viewModel n
  obtain ⟨hok, hlast⟩ := (m.runs root n).2.2.run_of_assigned hstill
  refine ⟨?_, ?_, ?_, ?_⟩
  · rw [runs, List.map_append, houtcomes, List.replicate_succ', List.map_singleton, hok]
  · rw [runs, hlast, hviewModel, hentries, List.map_map]
    exact List.map_congr_left fun entry _ => entry.normalized_afterRuns m.viewModel n
  · rw [runs, cleared_run, hcleared]
  · rw [runs, viewModel_run, hviewModel]

/-- **Repeated runs.** If one run on a tree succeeds, so do any number of them, one after another.
The attributes stay as the first run leaves them, an interpolation is read from the view model once
for each run, and plain text is quoted once for each run, which can be undone by decoding as often.
Nothing else changes. -/
theorem runs_of_ok (m : Normalizer) {root : Element} (hok : (m.run root).2.1.outcome = .ok ())
    {n : Nat} (hn : 1 ≤ n) :
    let before := root.toNode.entries
    let first := (m.run root).1.toNode.entries
    let last := (m.runs root n).1.toNode.entries
    (m.runs root n).2.1.map Traced.outcome = List.replicate n (.ok ()) ∧
      last = before.map (Entry.afterRuns m.viewModel n) ∧
      last.filterMap Entry.attribute? = first.filterMap Entry.attribute? ∧
      (m.runs root n).1.toNode.cleared = root.toNode.cleared ∧
      ∀ run : TextRun, run.kind = .plain →
        (fun text? => text?.bind unquote?)^[n] (some (run.afterRuns m.viewModel n).content) =
          some run.content := by
  have hassigned := assigned_of_run hok
  have hfirst := m.runsTo_one hassigned
  have hruns : m.RunsTo root n := Nat.le_induction hfirst (fun _ _ h => h.succ hassigned) n hn
  refine ⟨hruns.outcomes, hruns.entries, ?_, hruns.cleared, ?_⟩
  · have hone : (m.runs root 1).1 = (m.run root).1 := rfl
    rw [hruns.entries, ← hone, hfirst.entries, Entry.filterMap_attribute?_afterRuns,
      Entry.filterMap_attribute?_afterRuns]
  · intro run hplain
    rw [TextRun.afterRuns, hplain]
    exact iterate_unquote?_quote n run.content

/-- A binding, a quote in a text inside of it, and an expression, three times over. -/
theorem runs_of_ok_binding :
    let m : Normalizer := { viewModel := ['v'] }
    let root : Element :=
      { attributes := [{ isDynamic := true, raw := ":a = 'b'".toList }]
        children :=
          [.element {} [.text { content := "it's".toList }],
            .text { kind := .interpolation, content := ['x'] }] }
    (m.run root).2.1.outcome = .ok () ∧
      (m.runs root 3).2.1.map Traced.outcome = [.ok (), .ok (), .ok ()] ∧
      (m.runs root 3).1.toNode.entries =
        [.attribute
            { isDynamic := true, raw := ":a = 'b'".toList, field := ['a'], value := "v.b".toList },
          .text { content := "'\\'\\\\\\'it\\\\\\\\\\\\\\'s\\\\\\'\\''".toList },
          .text { kind := .interpolation, content := "v.v.v.x".toList }] ∧
      (m.runs root 3).1.toNode.cleared = root.toNode.cleared := by
  intro m root
  have hok : (m.run root).2.1.outcome = .ok () := by decide
  obtain ⟨houtcomes, hlast, _, hcleared, _⟩ := runs_of_ok m hok (n := 3) (by decide)
  refine ⟨hok, houtcomes, ?_, hcleared⟩
  rw [hlast]
  decide

end Normalizer

end MarkupCompiler
