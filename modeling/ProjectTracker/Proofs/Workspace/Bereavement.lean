import ProjectTracker.Proofs.Workspace.Lasting
import ProjectTracker.Proofs.Workspace.Settlement
import ProjectTracker.Proofs.Workspace.WatchAccounts
/-!
A tracked document has a watch of its file from the start. It loses it if the file is deleted while the document
is open, and does not get another one as long as it is tracked without a break, even if the file is there again
and the document has gone back to it by being closed.
-/

namespace ProjectTracker.Workspace

open Document

variable {strict : Prop} {w w' w'' : Workspace} {p q : Path} {op : Operation} {ops : List Operation}
  {d d' : Document}

/-- A tracked document has a live watch of its file, which is registered for it. -/
def Watched (w : Workspace) (p : Path) : Prop :=
  ∃ d id, w.documents.get? p = some d ∧ d.watch? = some id ∧
    w.fs.watches.get? id = some (.file (.ofPath p)) ∧ w.purposes.get? id = some (.document p)

/-- The document at a path, if there is one, has no watch. -/
def Unwatched (p : Path) (q : Path) (d : Document) : Prop :=
  q = p → d.watch? = none

/-! ### Watches that documents have -/

theorem mem_purposesAt {purpose : WatchPurpose} : purpose ∈ w.purposesAt q ↔
    ∃ id ∈ w.fs.watches.matching q, w.purposes.get? id = some purpose := by
  have hfold (purposes found : List WatchPurpose) : purpose ∈ purposes.foldl
      (fun found purpose => if purpose ∈ found then found else found ++ [purpose]) found ↔
        purpose ∈ found ∨ purpose ∈ purposes := by
    induction purposes generalizing found with
    | nil => simp
    | cons next purposes ih =>
        rw [List.foldl_cons, ih, List.mem_cons]
        split
        · rename_i hfound
          constructor
          · rintro (h | h)
            · exact .inl h
            · exact .inr (.inr h)
          · rintro (h | rfl | h)
            · exact .inl h
            · exact .inl hfound
            · exact .inr h
        · rw [List.mem_append, List.mem_singleton, or_assoc]
  unfold purposesAt
  rw [hfold]
  simp [List.mem_filterMap]

/-- A document is watched if a change of its file is known to be about it. -/
theorem WatchesAccounted.watched_iff (h : w.WatchesAccounted) :
    w.Watched p ↔ .document p ∈ w.purposesAt p := by
  rw [mem_purposesAt]
  constructor
  · rintro ⟨d, id, -, -, hlive, hpurpose⟩
    refine ⟨id, List.mem_map.mpr ⟨(id, .file (.ofPath p)), ?_, rfl⟩, hpurpose⟩
    exact List.mem_filter.mpr ⟨Table.mem_entries_of_get? hlive, decide_eq_true rfl⟩
  · rintro ⟨id, -, hpurpose⟩
    obtain ⟨target, hlive⟩ := (h.keys id).mpr ⟨_, hpurpose⟩
    obtain ⟨rfl, d, hd, hwatch⟩ := (h.backed id target (.document p)).mp ⟨hlive, hpurpose⟩
    exact ⟨d, id, hd, hwatch, hlive, hpurpose⟩

/-- A document at a path has a watch. -/
def HasWatch (p : Path) (q : Path) (d : Document) : Prop :=
  q = p → d.watch?.isSome

theorem lasting_hasWatch : Lasting (HasWatch p) where
  create _ _ _ _ _ _ := rfl
  turns hturns h := by
    cases hturns with
    | fold => exact h
    | edit hedit => exact fun hq => (congrArg Option.isSome (retexts_edit hedit).watch?).trans (h hq)
    | reload => exact h
    | fingerprinted => exact fun hq => (congrArg Option.isSome (retexts_fingerprinted _).watch?).trans (h hq)
    | setOpen => exact h
    | setOwner => exact h

theorem outlasts_hasWatch (hq : q ≠ p) : Outlasts (HasWatch p) q :=
  fun _ _ heq => absurd heq hq

/-- A document without a watch lost it with its file, and was tracked ever since. -/
theorem bereaved_of_unwatched (hnew : w.documents.get? p = none)
    (hd : (w.run ops).documents.get? p = some d) (hwatch : d.watch? = none) :
    ∃ done op rest, ops = done ++ op :: rest ∧ Bereaves p (w.run done) op ∧
      ∀ more, more <+: rest → (w.run (done ++ op :: more)).isTracked p := by
  induction ops using List.reverseRecOn generalizing d with
  | nil =>
      have hnone : none = some d := hnew.symm.trans hd
      cases hnone
  | append_singleton ops op ih =>
      have htracked : (w.run (ops ++ [op])).isTracked p := isTracked_iff.mpr ⟨d, hd⟩
      by_cases hop : Bereaves p (w.run ops) op
      · refine ⟨ops, op, [], rfl, hop, fun more hmore => ?_⟩
        rwa [List.prefix_nil.mp hmore]
      · -- the document had no watch before, since the operation leaves it the one that it has
        have hlost : ∃ d₀, (w.run ops).documents.get? p = some d₀ ∧ d₀.watch? = none := by
          by_contra hkept
          have hbefore : (w.run ops).AllDocuments (HasWatch p) := by
            rintro q d₀ hd₀ rfl
            exact Option.isSome_iff_ne_none.mpr fun hnone => hkept ⟨d₀, hd₀, hnone⟩
          have hother (q : Path) (hbereaves : Bereaves q (w.run ops) op) : Outlasts (HasWatch p) q := by
            refine outlasts_hasWatch ?_
            rintro rfl
            exact hop hbereaves
          have hafter := preserves_perform lasting_hasWatch hother hbefore
          rw [← run_concat] at hafter
          simpa [hwatch] using hafter p d hd rfl
        obtain ⟨d₀, hd₀, hwatch₀⟩ := hlost
        obtain ⟨done, first, rest, rfl, hbereaves, hsince⟩ := ih hd₀ hwatch₀
        refine ⟨done, first, rest ++ [op], by simp, hbereaves, fun more hmore => ?_⟩
        rcases List.prefix_concat_iff.mp hmore with rfl | hmore
        · simpa using htracked
        · exact hsince more hmore

/-! ### Watches that are lost -/

/-- A document without a watch stays tracked without one. Strictly this is said of open documents only, which
stay open. -/
def StaysBare (strict : Prop) (p : Path) (w w' : Workspace) : Prop :=
  ∀ d, w.documents.get? p = some d → d.watch? = none → (strict → d.isOpen) →
    ∃ d', w'.documents.get? p = some d' ∧ d'.watch? = none ∧ (strict → d'.isOpen)

theorem StaysBare.of_get? (h : w'.documents.get? p = w.documents.get? p) : StaysBare strict p w w' :=
  fun d hd hwatch hopen => ⟨d, h.trans hd, hwatch, hopen⟩

theorem StaysBare.trans (h : StaysBare strict p w w') (h' : StaysBare strict p w' w'') :
    StaysBare strict p w w'' := by
  intro d hd hwatch hopen
  obtain ⟨d', hd', hwatch', hopen'⟩ := h d hd hwatch hopen
  exact h' d' hd' hwatch' hopen'

theorem staysBare_modifyDocument {f : Document → Document}
    (h : q = p → ∀ d, w.documents.get? p = some d → d.watch? = none → (strict → d.isOpen) →
      (f d).watch? = none ∧ (strict → (f d).isOpen)) :
    StaysBare strict p w (w.modifyDocument q f) := by
  intro d hd hwatch hopen
  rw [get?_modifyDocument]
  split
  · rename_i hq
    exact ⟨f d, by rw [hd]; rfl, h hq d hd hwatch hopen⟩
  · exact ⟨d, hd, hwatch, hopen⟩

theorem staysBare_retext (hd : w.documents.get? q = some d) (h : d.Retexts d') :
    StaysBare strict p w (w.modifyDocument q fun _ => d') :=
  staysBare_modifyDocument fun hq d₀ hd₀ hwatch hopen => by
    subst hq
    obtain rfl : d = d₀ := Option.some.inj (hd.symm.trans hd₀)
    exact ⟨h.watch?.trans hwatch, fun hs => h.isOpen.trans (hopen hs)⟩

theorem staysBare_unwatch (w : Workspace) (q : Path) : StaysBare strict p w (w.unwatch q) := by
  intro d hd hwatch hopen
  rw [get?_unwatch]
  split
  · exact ⟨{ d with watch? := none }, by rw [hd]; rfl, rfl, hopen⟩
  · exact ⟨d, hd, hwatch, hopen⟩

theorem handles_staysBare : Handles (StaysBare strict p) where
  of_eq h := .of_get? (congrArg (·.get? p) h)
  trans := .trans
  fold _ _ := staysBare_modifyDocument fun _ _ _ hwatch hopen => ⟨hwatch, hopen⟩
  track {w q} text h := by
    intro d hd hwatch hopen
    have hp : p ≠ q := by
      rintro rfl
      simp [isTracked_eq, hd] at h
    exact ⟨d, (w.get?_track hp text).trans hd, hwatch, hopen⟩
  setOwner w q owner? := by
    intro d hd hwatch hopen
    rw [get?_setOwner]
    split
    · exact ⟨{ d with owner? }, by rw [hd]; rfl, hwatch, hopen⟩
    · exact ⟨d, hd, hwatch, hopen⟩

theorem oversees_staysBare : Oversees (StaysBare True p) where
  toHandles := handles_staysBare
  forget {w q} h := by
    intro d hd hwatch hopen
    rw [get?_forget, if_neg]
    · exact staysBare_unwatch w q d hd hwatch hopen
    · rintro rfl
      simp [isOpen, hd, hopen trivial] at h

theorem staysBare_shut (h : strict → q ≠ p) (w : Workspace) (text : Text) :
    StaysBare strict p w (w.shut q text) := by
  have hreloaded : StaysBare strict p w (w.modifyDocument q (·.reload text)) :=
    staysBare_modifyDocument fun _ _ _ hwatch hopen => ⟨hwatch, hopen⟩
  have hmarked := hreloaded.trans (handles_staysBare.markStaleAround _ q)
  have hunlisted := hmarked.trans (handles_staysBare.modifyOpenFiles _ (·.removeFirst q))
  have hvacated := hunlisted.trans (handles_staysBare.setOwner _ q none)
  exact hvacated.trans (staysBare_modifyDocument fun hq _ _ hwatch _ => ⟨hwatch, fun hs => absurd hq (h hs)⟩)

theorem staysBare_documentChanged (w : Workspace) (q : Path) (change : FileChange) :
    StaysBare True p w (w.documentChanged q change) :=
  oversees_staysBare.documentChanged change (fun _ _ => staysBare_unwatch w q)
    fun _ d text hd => staysBare_retext hd (d.retexts_reloadIfChanged text)

theorem touches_staysBare (h : ∀ q, op = .closeFile q → w.normalize q ≠ p) :
    Touches (StaysBare True p) w op := by
  cases op with
  | openFile q text? =>
      refine ⟨fun d text _ hd => staysBare_retext hd (d.retexts_reloadIfChanged text), fun v => ?_⟩
      exact staysBare_modifyDocument fun _ _ _ hwatch _ => ⟨hwatch, fun _ => rfl⟩
  | closeFile q => exact fun text _ => staysBare_shut (fun _ => h q rfl) w text
  | changeFile q edits =>
      exact fun v d d' edits hd hedits => staysBare_retext hd (retexts_editAll hedits)
  | changeRange q range text =>
      exact fun v d d' edits hd hedits => staysBare_retext hd (retexts_editAll hedits)
  | fileChanged q change => exact fun v r _ _ => staysBare_documentChanged v r change
  | _ => trivial

theorem StaysBare.unwatched (h : StaysBare strict p w w') (hd : w.documents.get? p = some d)
    (hopen : strict → d.isOpen) (hw : w.AllDocuments (Unwatched p)) : w'.AllDocuments (Unwatched p) := by
  rintro q d' hd' rfl
  obtain ⟨d'', hd'', hwatch, -⟩ := h d hd (hw q d hd rfl) hopen
  obtain rfl : d' = d'' := Option.some.inj (hd'.symm.trans hd'')
  exact hwatch

/-- A document that had no watch is closed without one. All that can happen to it is that it is swept out. -/
theorem unwatched_close (hd : w.documents.get? p = some d) (hw : w.AllDocuments (Unwatched p))
    (text : Text) : (w.close p text).AllDocuments (Unwatched p) := by
  have hloose : Handles (StaysBare False p) := handles_staysBare
  obtain ⟨left, owner?, hleft, heq⟩ := close_cases w p text
  have hshut : StaysBare False p w (w.shut p text) := staysBare_shut False.elim w text
  have hleft : StaysBare False p w left := by
    rcases hleft with rfl | ⟨id, rfl⟩
    · exact hshut
    · exact hshut.trans (hloose.assigns.dissolve _ id)
  have htold := hleft.trans ((hloose.cancel _ (.document p)).trans (hloose.emit _ (.closed p owner?)))
  obtain ⟨settled, hsettled, hswept⟩ :=
    hloose.assigns.settle_cases ((left.cancel (.document p)).emit (.closed p owner?))
  rw [heq, hswept]
  exact List.foldlRecOn _ _ ((htold.trans hsettled).unwatched hd False.elim hw)
    fun v hv q _ => preserves_forget v q hv

/-- An open document that has no watch has none after whatever is done next. -/
theorem unwatched_perform (hopen : w.isOpen p) (hw : w.AllDocuments (Unwatched p)) (op : Operation) :
    (w.perform op).AllDocuments (Unwatched p) := by
  obtain ⟨d, hd⟩ := isTracked_iff.mp (isTracked_of_isOpen hopen)
  by_cases hcloses : ∃ q, op = .closeFile q ∧ w.normalize q = p
  · obtain ⟨q, rfl, rfl⟩ := hcloses
    show (w.closeFile q).1.AllDocuments (Unwatched (w.normalize q))
    rcases closeFile_cases w q with hsame | ⟨-, text, hclosed⟩
    · rwa [hsame]
    · rw [hclosed]
      exact unwatched_close hd hw text
  · have hother : Touches (StaysBare True p) w op :=
      touches_staysBare fun q hq heq => hcloses ⟨q, hq, heq⟩
    exact (oversees_staysBare.perform hother).unwatched hd (fun _ => by simpa [isOpen, hd] using hopen) hw

/-- The watch of an open document is given up with the file. -/
theorem unwatched_documentDeleted (h : w.isOpen p) :
    (w.documentDeleted p).AllDocuments (Unwatched p) := by
  unfold documentDeleted
  rw [if_pos h]
  rintro q d' hd' rfl
  have hlost : (w.unwatch q).documents.get? q = some d' := hd'
  rw [get?_unwatch, if_pos rfl] at hlost
  obtain ⟨d, -, rfl⟩ := Option.map_eq_some_iff.mp hlost
  rfl

theorem unwatched_of_bereaves (h : Bereaves p w op) : (w.perform op).AllDocuments (Unwatched p) := by
  cases op with
  | fileChanged q change =>
      cases change with
      | deleted =>
          obtain ⟨hopen, hp⟩ := h
          obtain ⟨before, after, hpurposes⟩ := List.append_of_mem hp
          show ((w.purposesAt (w.normalize q)).foldl (respond (w.normalize q) .deleted) w).AllDocuments
            (Unwatched p)
          rw [hpurposes, List.foldl_append, List.foldl_cons]
          have hsame := isOpen_foldl_respond (w := w) (w.normalize q) .deleted before
          generalize before.foldl _ w = v at hsame ⊢
          have hlost : (v.documentChanged p .deleted).AllDocuments (Unwatched p) :=
            unwatched_documentDeleted (hsame ▸ hopen)
          have hopen' : (v.documentChanged p .deleted).isOpen p := by
            rw [isOpen_documentChanged, hsame]
            exact hopen
          obtain ⟨d, hd⟩ := isTracked_iff.mp (isTracked_of_isOpen hopen')
          have hstays : StaysBare True p (v.documentChanged p .deleted)
              (after.foldl (respond (w.normalize q) .deleted) (v.documentChanged p .deleted)) :=
            oversees_staysBare.foldl_respond _ _ fun v r _ _ => staysBare_documentChanged v r .deleted
          exact hstays.unwatched hd (fun _ => by simpa [isOpen, hd] using hopen') hlost
      | created => exact h.elim
      | changed => exact h.elim
  | _ => exact h.elim

theorem unwatched_run (hw : w.AllDocuments (Unwatched p)) {rest : List Operation}
    (hopen : ∀ more op, more ++ [op] <+: rest → (w.run more).isOpen p) :
    (w.run rest).AllDocuments (Unwatched p) := by
  induction rest using List.reverseRecOn with
  | nil => exact hw
  | append_singleton rest op ih =>
      rw [run_concat]
      refine unwatched_perform (hopen rest op (List.prefix_refl _)) ?_ op
      exact ih fun more op' hmore => hopen more op' (hmore.trans (List.prefix_append ..))

/-- As long as nobody else has to do with the watches of the file system, a tracked document has a live watch of
its file, so that changes of the file are known to be about it, unless the file was deleted while the document
was open, and the document was tracked ever since. In that case the document has no watch as long as it is open,
and it gets none as it is closed. -/
theorem watched_run (settings : Settings) (scanner : Scanner) (fs : FileSystem) (ops : List Operation)
    (p : Path) :
    let start : Workspace := { settings, scanner, fs }
    (fs.watches = {} → start.Avoids ops Meddles →
      ((start.run ops).Watched p ↔ .document p ∈ (start.run ops).purposesAt p) ∧
      ((start.run ops).isTracked p →
        (start.run ops).Watched p ∨ ∃ done op rest, ops = done ++ op :: rest ∧
          Bereaves p (start.run done) op ∧
            ∀ more, more <+: rest → (start.run (done ++ op :: more)).isTracked p)) ∧
    ∀ done op rest, ops = done ++ op :: rest → Bereaves p (start.run done) op →
      (∀ more op', more ++ [op'] <+: rest → (start.run (done ++ op :: more)).isOpen p) →
        ¬(start.run ops).Watched p := by
  intro start
  constructor
  · intro hfs hops
    have haccounted := watchesAccounted_of_balanced (balanced_run settings hfs hops)
    refine ⟨haccounted.watched_iff, fun htracked => ?_⟩
    obtain ⟨d, hd⟩ := isTracked_iff.mp htracked
    cases hwatch : d.watch? with
    | none => exact .inr (bereaved_of_unwatched rfl hd hwatch)
    | some id =>
        have hbacks : (start.run ops).Backs id (.file (.ofPath p)) (.document p) := ⟨rfl, d, hd, hwatch⟩
        exact .inl ⟨d, id, hd, hwatch, (haccounted.backed ..).mpr hbacks⟩
  · rintro done op rest rfl hbereaves hopen ⟨d, id, hd, hwatch, -⟩
    have hsplit (more : List Operation) :
        start.run (done ++ op :: more) = ((start.run done).perform op).run more :=
      List.foldl_append
    have hlost : (((start.run done).perform op).run rest).AllDocuments (Unwatched p) :=
      unwatched_run (unwatched_of_bereaves hbereaves) fun more op' hmore =>
        hsplit more ▸ hopen more op' hmore
    rw [hsplit] at hd
    have hnone := hlost p d hd rfl
    simp [hwatch] at hnone

/-- A file that another one refers to is told to be deleted while it is open. It is there when it is closed, and
stays tracked without a watch. -/
theorem watched_run_recreated :
    let path (name : String) : Path := ⟨[.root, .name name]⟩
    let fs := FileSystem.ofFiles [(path "a", "@b".toList), (path "b", [])]
    let start : Workspace := { settings := {}, scanner := signScanner, fs }
    let opening : List Operation := [.openFile (path "a") none, .openFile (path "b") none]
    let deleted : Operation := .fileChanged (path "b") .deleted
    let w := start.run (opening ++ deleted :: [.closeFile (path "b")])
    (w.isTracked (path "b") ∧ w.isOpen (path "b") = false ∧ w.fs.text? (path "b") = some []) ∧
      Bereaves (path "b") (start.run opening) deleted ∧ ¬w.Watched (path "b") := by
  intro path fs start opening deleted w
  have hbereaves : Bereaves (path "b") (start.run opening) deleted :=
    ⟨by decide +kernel, by decide +kernel⟩
  have hopen : (start.run (opening ++ [deleted])).isOpen (path "b") := by decide +kernel
  refine ⟨⟨by decide +kernel, by decide +kernel, by decide +kernel⟩, hbereaves, ?_⟩
  refine (watched_run {} signScanner fs _ (path "b")).2 opening deleted _ rfl hbereaves ?_
  intro more op' hmore
  obtain rfl : more = [] := by
    have hlength := hmore.length_le
    simpa using hlength
  exact hopen

end ProjectTracker.Workspace
