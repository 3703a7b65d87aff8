import ProjectTracker.Proofs.Path.Normalizing
import ProjectTracker.Proofs.Workspace.Runs
/-!
Which project documents belong to, and how many open documents a project counts: the two agree, and
the project is live unless a step of the run robbed another one.
-/

namespace ProjectTracker

open Registry

namespace Workspace

variable {t : Terms} {w : Workspace} {p : Path} {op : Operation} {settings : Settings}
  {scanner : Scanner} {fs : FileSystem} {ops : List Operation}

/-- The open documents belong to projects, the closed ones to none, and every live project counts
its open documents. No count was ever to fall below zero. -/
structure Accounts (w : Workspace) : Prop where
  open_owned : ∀ p, w.isOpen p → ∃ id, w.owner? p = some id
  closed_free : ∀ p, w.isOpen p = false → w.owner? p = none
  counted : ∀ id project, w.projects.get? id = some project →
    project.openCount = { p | w.isOpen p ∧ w.owner? p = some id }.ncard
  overdrafts : w.overdrafts = 0

/-- Every owner is a live project. -/
def OwnersLive (w : Workspace) : Prop :=
  ∀ p id, w.owner? p = some id → ∃ project, w.projects.get? id = some project

theorem accounts_of_sound (h : Sound t w.registry [] [] []) : w.Accounts where
  open_owned p hopen := by
    refine Option.ne_none_iff_exists'.mp fun hnone => ?_
    simpa using h.unowned p hopen hnone
  closed_free p hclosed := by
    by_contra hne
    have hopen : w.isOpen p := h.owned_open p hne
    simp [hclosed] at hopen
  counted id project hproject :=
    h.count id project.charter (by simp [registry, hproject])
  overdrafts := h.overdrafts

theorem ownersLive_of_sound (h : Sound t w.registry [] [] []) (ht : t.live) : w.OwnersLive := by
  intro p id howner
  have hlive := (h.owner_live ht p id howner).resolve_right (by simp)
  obtain ⟨c, hc⟩ := Option.isSome_iff_exists.mp hlive
  obtain ⟨project, hproject, -⟩ := Option.map_eq_some_iff.mp hc
  exact ⟨project, hproject⟩

/-! ### Normal paths -/

/-- The question for the project of a document makes the path normal twice. Where that is as good as
once the answer is the project that the document has. -/
theorem not_robs_of_normal (h : ∀ p, w.normalize (w.normalize p) = w.normalize p) : ¬w.Robs op := by
  intro hrobs
  cases op with
  | adoptProjectFor p =>
      obtain ⟨former, id, howner, hanswer, hne⟩ := hrobs
      have htracked : w.isTracked (w.normalize p) := by
        rw [isTracked_eq]
        unfold owner? at howner
        cases hd : w.documents.get? (w.normalize p) with
        | none => simp [hd] at howner
        | some d => rfl
      have hfound : w.projectFor (w.normalize p) = (w, some former) := by
        unfold projectFor
        dsimp only
        rw [h p, if_pos htracked, howner]
      unfold adoptProjectFor at hanswer
      dsimp only at hanswer
      rw [hfound] at hanswer
      exact hne (Option.some.inj hanswer).symm
  | _ => exact hrobs

/-- How paths are made normal stays the same. -/
theorem avoids_robs_of_normal
    (h : ∀ p, scanner.normalizer.normalize (scanner.normalizer.normalize p) =
      scanner.normalizer.normalize p) :
    ({ settings, scanner, fs } : Workspace).Avoids ops Robs := by
  induction ops using List.reverseRecOn with
  | nil =>
      intro done op hdone
      simp at hdone
  | append_singleton ops op ih =>
      have hnormalizer : (({ settings, scanner, fs } : Workspace).run ops).normalizer =
          scanner.normalizer :=
        (sound_of_avoids_robs ih).normalizer
      refine avoids_concat.mpr ⟨ih, not_robs_of_normal fun p => ?_⟩
      unfold normalize
      rw [hnormalizer]
      exact h p

/-- Paths are normal at once with an absolute base directory. -/
theorem avoids_robs_of_isAbsolute (hbase : scanner.normalizer.base.isAbsolute) :
    ({ settings, scanner, fs } : Workspace).Avoids ops Robs :=
  avoids_robs_of_normal fun p => Normalizer.normalize_normalize hbase p

/-! ### Runs -/

/-- Where no step of a run robs a project, documents and projects agree on who belongs to whom, and
every owner is live. With an absolute base directory no step does. Without a document that is listed
twice the accounts are right at any rate, and only the owners may be gone. -/
theorem ownership_run (settings : Settings) (scanner : Scanner) (fs : FileSystem)
    (ops : List Operation) :
    let start : Workspace := { settings, scanner, fs }
    (start.Avoids ops Robs → (start.run ops).Accounts ∧ (start.run ops).OwnersLive) ∧
      (scanner.normalizer.base.isAbsolute → start.Avoids ops Robs) ∧
      (start.Avoids ops Doubles → (start.run ops).Accounts) := by
  intro start
  refine ⟨fun hrobs => ?_, fun hbase => ?_, fun hdoubles => ?_⟩
  · have hsound := sound_of_avoids_robs hrobs
    exact ⟨accounts_of_sound hsound, ownersLive_of_sound hsound trivial⟩
  · exact avoids_robs_of_normal fun p => Normalizer.normalize_normalize hbase p
  · exact accounts_of_sound (sound_of_avoids_doubles hdoubles)

/-- With a relative base directory a document can be given the project of another one, and keep it when
that project goes. -/
example :
    let path (names : List String) : Path := ⟨names.map .name⟩
    let files (manifest : String) := FileSystem.ofFiles
      [(path ["w", "a"], []), (path ["w", "w", "a"], []), (path ["w", "w", "b"], []),
        (path ["w", "w", "project.toml"], []),
        (path ["w", "w", "w", "project.toml"], manifest.toList)]
    let start : Workspace :=
      { settings := {}
        scanner := ⟨.empty, ⟨path ["w"], true⟩⟩
        fs := files "files = ['../../a']" }
    let ops :=
      [.openFile (path ["a"]) none, .openFile (path ["w", "a"]) none,
        .adoptProjectFor (path ["a"]), .replaceFiles (files "files = ['../../a', '../../../a']"),
        .openFile (path ["w", "b"]) none]
    (start.run ops).owner? (path ["w", "a"]) = some 2 ∧
      2 ∉ (start.run ops).projects.keys := by
  decide +kernel

end Workspace

end ProjectTracker
