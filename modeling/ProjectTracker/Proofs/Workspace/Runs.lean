import ProjectTracker.Proofs.Workspace.Anchoring
import ProjectTracker.Proofs.Workspace.Operations
/-!
Runs keep the invariant. Two kinds of steps each cost a part of it: one lists a document twice, the
other takes a document away from its project.
-/

namespace ProjectTracker

open Registry

/-- The lists are asked to be in order. -/
def Registry.Terms.listing (normalizer : Normalizer) : Terms :=
  ⟨True, False, .inl trivial, normalizer, []⟩

/-- The owners are asked to be in order. -/
def Registry.Terms.owning (normalizer : Normalizer) : Terms :=
  ⟨False, True, .inr trivial, normalizer, []⟩

namespace Workspace

variable {t : Terms} {w received : Workspace} {p : Path} {op : Operation}

/-- An operation opens a closed document that the nearest manifest, read again on the way, makes a
new root of its project. -/
def Doubles (w : Workspace) : Operation → Prop
  | .openFile p text? =>
    w.isOpen (w.normalize p) = false ∧
      ∃ received, w.receive (w.normalize p) text? = .ok received ∧
        w.normalize p ∈ received.gainsNear (w.normalize p)
  | _ => False

/-- An operation gives a document of one project to another one, in answer to the question which
project it belongs to. -/
def Robs (w : Workspace) : Operation → Prop
  | .adoptProjectFor p =>
    ∃ former id, w.owner? (w.normalize p) = some former ∧
      (w.adoptProjectFor p).2 = some id ∧ id ≠ former
  | _ => False

/-! ### Opening -/

/-- A document that was just opened waits for its first place. -/
theorem opened_sound (h : Sound t.settled w.registry [] [] []) (htracked : w.isTracked p)
    (hclosed : w.isOpen p = false) :
    Sound t.settled (w.modifyDocument p fun d => { d with isOpen := true }).registry [] [] [p] := by
  rw [registry_setOpen htracked]
  refine h.opening hclosed (fun hall => ?_) (by simp)
  have hopen : w.isOpen p := (h.listed_open p hall).resolve_right (by simp [Terms.settled])
  simp [hclosed] at hopen

/-- A document that the manifest made a root has its place, and is in hand all the same. The lists
allow that only if a document may stand in them twice. -/
theorem consultManifest_gained (h : Sound t.settled w.registry [] [] [p])
    (hgained : p ∈ w.gainsNear p) (honce : ¬t.once) :
    ∃ id, (w.consultManifest p).registry.Anchored id p ∧
      Sound t.settled (w.consultManifest p).registry [] [p] [] := by
  have hlive : t.live := t.asked.resolve_left honce
  have hconsulted := consultManifest_sound h p
  rw [List.filter_cons_of_neg (by simpa using hgained), List.filter_nil] at hconsulted
  obtain ⟨id, hanchored⟩ := anchored_consultManifest (t := t.settled) hlive h hgained (by simp)
  have hopen := hconsulted.owned_open p (by simp [hanchored.owner])
  exact ⟨id, hanchored, hconsulted.grab honce hopen (hanchored.notMem_roots hconsulted hlive)
    (by simp) (by simp)⟩

/-- Any other document still waits for its first place. -/
theorem consultManifest_welcome (h : Sound t.settled w.registry [] [] [p])
    (hgained : p ∉ w.gainsNear p) : Sound t.settled (w.consultManifest p).registry [] [p] [] := by
  have hconsulted := consultManifest_sound h p
  rw [List.filter_cons_of_pos (by simpa using hgained), List.filter_nil] at hconsulted
  have hwelcomed := hconsulted.welcome (p := p) (by simp)
  rwa [List.filter_cons_of_neg (by simp), List.filter_nil] at hwelcomed

theorem consult_attach_sound (h : Sound t.settled w.registry [] [] [p])
    (hgains : t.once → p ∉ w.gainsNear p) :
    Sound t.settled ((w.consultManifest p).attach p).registry [] [] [] := by
  apply attach_sound
  by_cases hgained : p ∈ w.gainsNear p
  · obtain ⟨-, -, hinHand⟩ := consultManifest_gained h hgained fun ht => hgains ht hgained
    exact hinHand
  · exact consultManifest_welcome h hgained

theorem openFile_sound (h : Sound t.settled w.registry [] [] []) {text? : Option Text}
    (hdoubles : t.once → ¬w.Doubles (.openFile p text?)) :
    Sound t.settled (w.openFile p text?).1.registry [] [] [] := by
  unfold openFile
  dsimp only
  cases hreceive : w.receive (w.normalize p) text? with
  | error failure => exact h
  | ok received =>
      obtain ⟨hregistry, htracked⟩ := receive_eq hreceive
      have hsame := congrFun (congrArg Registry.isOpen hregistry) (w.normalize p)
      rw [registry_isOpen, registry_isOpen] at hsame
      rw [← hregistry] at h
      dsimp only
      rw [registry_emit]
      split
      · exact h
      · rename_i hopen
        have hclosed : w.isOpen (w.normalize p) = false := Bool.eq_false_iff.mpr hopen
        have hopened := opened_sound h htracked (hsame.trans hclosed)
        have hgains (ht : t.once) : w.normalize p ∉ received.gainsNear (w.normalize p) :=
          fun hgained => hdoubles ht ⟨hclosed, received, hreceive, hgained⟩
        exact sweep_sound (prune_sound (consult_attach_sound hopened hgains))

/-! ### Asking for a project -/

/-- The project that is given to an open document is live, or has another document already. -/
theorem adoptProjectFor_cases (w : Workspace) (p : Path) :
    (w.adoptProjectFor p).1.registry = w.registry ∨
      ∃ id, (w.adoptProjectFor p).2 = some id ∧ w.isOpen (w.normalize p) ∧
        (w.adoptProjectFor p).1.registry = w.registry.setOwner (w.normalize p) (some id) ∧
        (w.registry.IsLive id ∨ ∃ q, w.owner? q = some id) := by
  have hfound (id : ProjectId) (h : (w.projectFor (w.normalize p)).2 = some id) :
      w.registry.IsLive id ∨ ∃ q, w.owner? q = some id := by
    unfold projectFor at h
    dsimp only at h
    split at h
    · split at h
      · rename_i howner
        exact .inr ⟨_, howner.trans h⟩
      · left
        rw [reachingProject?] at h
        have hreaches := List.find?_some h
        simp only [Bool.and_eq_true] at hreaches
        rw [← registry_refresh]
        exact isLive_of_projectHas hreaches.2
    · simp at h
  have hregistry := registry_projectFor w (w.normalize p)
  unfold adoptProjectFor
  dsimp only
  generalize w.projectFor (w.normalize p) = answer at hfound hregistry ⊢
  obtain ⟨found, id?⟩ := answer
  cases id? with
  | none => exact .inl hregistry
  | some id =>
      dsimp only at hregistry ⊢
      split
      · rename_i hopen
        have hopen' : w.isOpen (w.normalize p) := by
          rw [← registry_isOpen, ← hregistry]
          exact hopen
        refine .inr ⟨id, rfl, hopen', ?_, hfound id rfl⟩
        rw [registry_setOwner (.inl hopen), hregistry]
      · exact .inl hregistry

theorem adoptProjectFor_sound (h : Sound t.settled w.registry [] [] [])
    (hrobs : t.live → ¬w.Robs (.adoptProjectFor p)) :
    Sound t.settled (w.adoptProjectFor p).1.registry [] [] [] := by
  rcases adoptProjectFor_cases w p with hregistry | ⟨id, hanswer, hopen, hregistry, hid⟩
  · rw [hregistry]
    exact h
  · rw [hregistry]
    have hle : id ≤ w.registry.lastProject := by
      rcases hid with hlive | ⟨q, howner⟩
      · exact h.live_le id hlive
      · exact h.owner_le q id howner
    cases howner : w.owner? (w.normalize p) with
    | none => simpa using h.unowned (w.normalize p) hopen howner
    | some former =>
        -- to give a document to the project that it has changes nothing
        by_cases hsame : id = former
        · rw [hsame, ← howner, ← registry_owner?, setOwner_self]
          exact h
        · have howned : w.registry.owner? (w.normalize p) ≠ none := by simp [howner]
          have hlive (ht : t.live) : False := hrobs ht ⟨former, id, howner, hanswer, hsame⟩
          exact h.reassign hlive howned hle

/-! ### Steps and runs -/

theorem perform_sound (h : Sound t.settled w.registry [] [] [])
    (hdoubles : t.once → ¬w.Doubles op) (hrobs : t.live → ¬w.Robs op) :
    Sound t.settled (w.perform op).registry [] [] [] := by
  cases op with
  | openFile p text? => exact openFile_sound h hdoubles
  | closeFile p => exact closeFile_sound h p
  | changeFile p edits =>
      show Sound t.settled (w.changeFile p edits).1.registry [] [] []
      rwa [registry_changeFile]
  | changeRange p range text =>
      show Sound t.settled (w.changeRange p range text).1.registry [] [] []
      rwa [registry_changeRange]
  | snapshot p =>
      show Sound t.settled (w.snapshot p).1.registry [] [] []
      rwa [registry_snapshot]
  | getText p start length =>
      show Sound t.settled (w.query p _).1.registry [] [] []
      rwa [registry_query]
  | getTextRange p range =>
      show Sound t.settled (w.query p _).1.registry [] [] []
      rwa [registry_query]
  | positionAt p offset =>
      show Sound t.settled (w.query p _).1.registry [] [] []
      rwa [registry_query]
  | offsetAt p position =>
      show Sound t.settled (w.query p _).1.registry [] [] []
      rwa [registry_query]
  | projectFor p =>
      show Sound t.settled (w.projectFor p).1.registry [] [] []
      rwa [registry_projectFor]
  | adoptProjectFor p => exact adoptProjectFor_sound h hrobs
  | takeEvents =>
      show Sound t.settled w.takeEvents.1.registry [] [] []
      rwa [registry_takeEvents]
  | fileChanged p change => exact fileChanged_sound h p change
  | advance duration =>
      show Sound t.settled (w.advance duration).registry [] [] []
      exact advance_sound h duration
  | flush =>
      show Sound t.settled w.flush.registry [] [] []
      exact flush_sound h
  | reload =>
      show Sound t.settled w.reload.registry [] [] []
      exact reload_sound (t := t.settled) h
  | settle =>
      show Sound t.settled w.settle.registry [] [] []
      exact settle_sound (t := t.settled) h
  | replaceFiles fs => exact h

/-- No step of a run is of a kind. -/
def Avoids (w : Workspace) (ops : List Operation) (kind : Workspace → Operation → Prop) : Prop :=
  ∀ done op, done ++ [op] <+: ops → ¬kind (w.run done) op

theorem run_concat (w : Workspace) (ops : List Operation) (op : Operation) :
    w.run (ops ++ [op]) = (w.run ops).perform op :=
  List.foldl_concat ..

theorem avoids_concat {ops : List Operation} {kind : Workspace → Operation → Prop} :
    w.Avoids (ops ++ [op]) kind ↔ w.Avoids ops kind ∧ ¬kind (w.run ops) op := by
  constructor
  · intro h
    exact ⟨fun done next hdone => h done next (hdone.trans (List.prefix_append ..)),
      h ops op (List.prefix_refl _)⟩
  · rintro ⟨hops, hop⟩ done next hdone
    rcases List.prefix_concat_iff.mp hdone with heq | hdone
    · obtain ⟨rfl, hnext⟩ := List.append_inj' heq rfl
      obtain rfl : next = op := by simpa using hnext
      exact hop
    · exact hops done next hdone

theorem Avoids.of_prefix {ops done : List Operation} {kind : Workspace → Operation → Prop}
    (h : w.Avoids ops kind) (hdone : done <+: ops) : w.Avoids done kind :=
  fun done' op hdone' => h done' op (hdone'.trans hdone)

theorem avoids_nil {kind : Workspace → Operation → Prop} : w.Avoids [] kind := by
  intro done op hdone
  simp at hdone

theorem avoids_cons {ops : List Operation} {kind : Workspace → Operation → Prop} :
    w.Avoids (op :: ops) kind ↔ ¬kind w op ∧ (w.perform op).Avoids ops kind := by
  constructor
  · intro h
    refine ⟨h [] op (by simp), fun done next hdone => ?_⟩
    exact h (op :: done) next ((List.prefix_cons_inj op).mpr hdone)
  · rintro ⟨hop, hops⟩ done next hdone
    cases done with
    | nil =>
        obtain rfl : next = op := by simpa using hdone
        exact hop
    | cons first done =>
        obtain ⟨rfl, hrest⟩ := List.cons_prefix_cons.mp hdone
        exact hops done next hrest

/-- Whether no step of a run is of a kind is found by making the run. -/
instance decidableAvoids (kind : Workspace → Operation → Prop)
    [∀ w op, Decidable (kind w op)] : (w : Workspace) → (ops : List Operation) →
    Decidable (w.Avoids ops kind)
  | _, [] => isTrue avoids_nil
  | w, op :: ops =>
    have := decidableAvoids kind (w.perform op) ops
    decidable_of_iff _ avoids_cons.symm

instance (w : Workspace) : (op : Operation) → Decidable (w.Robs op)
  | .adoptProjectFor p => decidable_of_iff
      ((w.owner? (w.normalize p)).any fun former => (w.adoptProjectFor p).2.any (· ≠ former)) <| by
    simp [Robs, Option.any_eq_true]
  | .openFile .. | .closeFile .. | .changeFile .. | .changeRange .. | .snapshot .. | .getText ..
  | .getTextRange .. | .positionAt .. | .offsetAt .. | .projectFor .. | .takeEvents | .fileChanged ..
  | .advance .. | .flush | .reload | .settle | .replaceFiles .. => inferInstanceAs (Decidable False)

theorem run_sound (h : Sound t.settled w.registry [] [] []) {ops : List Operation}
    (hdoubles : t.once → w.Avoids ops Doubles) (hrobs : t.live → w.Avoids ops Robs) :
    Sound t.settled (w.run ops).registry [] [] [] := by
  induction ops using List.reverseRecOn with
  | nil => exact h
  | append_singleton ops op ih =>
      have hdone := ih (fun ht => (avoids_concat.mp (hdoubles ht)).1)
        fun ht => (avoids_concat.mp (hrobs ht)).1
      rw [run_concat]
      exact perform_sound hdone (fun ht => (avoids_concat.mp (hdoubles ht)).2)
        fun ht => (avoids_concat.mp (hrobs ht)).2

/-- An empty workspace knows of no document and of no project. -/
theorem sound_empty {settings : Settings} {scanner : Scanner} {fs : FileSystem}
    (ht : t.normalizer = scanner.normalizer) :
    Sound t.settled ({ settings, scanner, fs } : Workspace).registry [] [] [] := by
  have hopen (p : Path) : ({ settings, scanner, fs } : Workspace).registry.isOpen p = false := rfl
  have hnone (p : Path) : ({ settings, scanner, fs } : Workspace).registry.owner? p = none := rfl
  have hdead (id : ProjectId) :
      ({ settings, scanner, fs } : Workspace).registry.charter? id = none := rfl
  have hlists : ({ settings, scanner, fs } : Workspace).registry.openFiles = {} := rfl
  have hnever : ({ settings, scanner, fs } : Workspace).registry.overdrafts = 0 := rfl
  have hnormalizer : ({ settings, scanner, fs } : Workspace).registry.normalizer =
      t.settled.normalizer := ht.symm
  generalize ({ settings, scanner, fs } : Workspace).registry = r at *
  constructor <;> simp [*, OpenFiles.all, IsLive]

variable {settings : Settings} {scanner : Scanner} {fs : FileSystem} {ops : List Operation}

/-- Without a step that doubles documents the lists are in order. -/
theorem sound_of_avoids_doubles
    (h : ({ settings, scanner, fs } : Workspace).Avoids ops Doubles) :
    Sound (.listing scanner.normalizer) (({ settings, scanner, fs } : Workspace).run ops).registry
      [] [] [] :=
  run_sound (t := .listing scanner.normalizer) (sound_empty rfl) (fun _ => h)
    fun hlive : False => hlive.elim

/-- Without a step that robs projects the owners are in order. -/
theorem sound_of_avoids_robs (h : ({ settings, scanner, fs } : Workspace).Avoids ops Robs) :
    Sound (.owning scanner.normalizer) (({ settings, scanner, fs } : Workspace).run ops).registry
      [] [] [] :=
  run_sound (t := .owning scanner.normalizer) (sound_empty rfl) (fun honce : False => honce.elim)
    fun _ => h

end Workspace

end ProjectTracker
