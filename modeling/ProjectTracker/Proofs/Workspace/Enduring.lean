import ProjectTracker.Proofs.Workspace.Recursion
/-!
What holds through all of attaching. The invariant of the registry is kept at every level of it, so that it is enough
to look at a document that joins a project and at one that is given a project of its own. So a configured project
stays what it is, and a document that was given to a project is in it afterwards.
-/

namespace ProjectTracker.Workspace

open Registry

variable {t : Terms} {w v : Workspace} {loose guests ps waiting detached : List Path} {p q : Path}
  {first id : ProjectId} {held : Holding} {property : Workspace → Prop} {suits : Holding → Prop}

/-- No project is stale. -/
def Fresh (w : Workspace) : Prop :=
  ∀ id held, w.holding? id = some held → held.isStale = false

/-- A property that workspaces keep as documents without a project are attached. -/
structure Endures (t : Terms) (guests : List Path) (property : Workspace → Prop) : Prop where
  emit : ∀ w e, property w → property (w.emit e)
  lift : ∀ w p, w.owner? p = none → property w → property (w.modifyOpenFiles (·.remove p)).refresh
  join : ∀ {w joined p loose}, Sound t w.registry loose [p] guests → w.Fresh → w.owner? p = none →
    property w → w.join? p = some joined → property joined
  found : ∀ {w p loose}, Sound t w.registry loose [p] guests → w.Fresh → w.owner? p = none →
    property w → property (w.foundProject p true).1

/-- A document that was put down again is not loose. -/
theorem sound_put_loose {r : Registry} (h : Sound t r ((p :: loose).filter (· ≠ p)) [] guests)
    (hguests : ∀ q ∈ guests, q ∉ loose) : Sound t r loose [] guests := by
  refine h.weaken (fun q hq _ _ => .inl ?_) hguests
  obtain ⟨hq, hqp⟩ := List.mem_filter.mp hq
  exact (List.mem_cons.mp hq).resolve_left (by simpa using hqp)

theorem ReattachesTo.endures {holds : Workspace → Path → Prop} {certain : Path → Prop}
    (h : ReattachesTo holds certain w ps v) (hendures : Endures t guests property)
    (hsound : Sound t w.registry (ps ++ loose) [] guests) (hw : property w) :
    property v ∧ Sound t v.registry loose [] guests := by
  induction h generalizing loose with
  | nil => exact ⟨hw, hsound⟩
  | @stay _ w v p ps hstays _ ih =>
      refine ih (hsound.weaken (fun q hq hopen hnone => .inl ?_) fun q hq hq' => ?_) hw
      · rcases List.mem_cons.mp hq with rfl | hq
        · exact absurd hnone (hstays hopen)
        · exact hq
      · exact (hsound.guest q hq).2.2.2.1 (by simp [hq'])
  | @join _ w v joined p ps hopen hnone hjoined _ ih =>
      have hguests : ∀ q ∈ guests, q ∉ ps ++ loose := fun q hq hq' =>
        (hsound.guest q hq).2.2.2.1 (List.mem_cons_of_mem p hq')
      have hlifted := lift_loose hsound hopen hnone
      rw [← registry_modifyOpenFiles, ← registry_refresh] at hlifted
      have hnone' : (w.modifyOpenFiles (·.remove p)).refresh.owner? p = none := by
        rw [← registry_owner?, registry_refresh]
        exact hnone
      have hjoins := hendures.join hlifted (fresh_refresh _) hnone' (hendures.lift w p hnone hw) hjoined
      have hput : Sound t joined.registry (ps ++ loose) [] guests :=
        sound_put_loose (join?_sound hlifted hjoined) hguests
      exact ih hput (hendures.emit _ _ hjoins)
  | @found _ w v lifted attached p ps hopen hnone _ hlifting _ _ _ _ ih ih' =>
      subst hlifting
      have hguests : ∀ q ∈ guests, q ∉ ps ++ loose := fun q hq hq' =>
        (hsound.guest q hq).2.2.2.1 (List.mem_cons_of_mem p hq')
      have hlifted := lift_loose hsound hopen hnone
      rw [← registry_modifyOpenFiles, ← registry_refresh] at hlifted
      have hnone' : (w.modifyOpenFiles (·.remove p)).refresh.owner? p = none := by
        rw [← registry_owner?, registry_refresh]
        exact hnone
      have hfounded := hendures.found hlifted (fresh_refresh _) hnone' (hendures.lift w p hnone hw)
      obtain ⟨hattached, hattaches⟩ := ih (foundProject_sound hlifted true) hfounded
      exact ih' (sound_put_loose hattaches hguests) (hendures.emit _ _ hattached)

theorem reattach_endures (hendures : Endures t guests property) (hplanted : Planted first [] w.registry)
    (hw : w.Enlisted) (hsound : Sound t w.registry (ps ++ loose) [] guests) (h : property w) :
    property (w.reattach ps) := by
  have hreattaches : ReattachesTo (fun _ _ => True) (fun _ => False) w ps (w.reattach ps) :=
    reattachesTo_reattach (fun _ _ _ (h : True) => h) (fun _ _ _ _ _ _ _ _ => trivial) hplanted hw trivial ps
  exact (hreattaches.endures hendures hsound h).1

/-- A project that was made last takes over the roots that it reaches. -/
theorem Founds.absorbing {files : List Path} {founded : Workspace} (hfounds : Founds q files w founded)
    (hsound : Sound t w.registry loose [q] guests) :
    Absorbing t founded.registry ([] ++ loose) guests (w.lastProject + 1) q (w.reachedRoots founded) := by
  rw [hfounds.registry]
  exact hsound.absorbing List.filter_sublist

/-! ### Configured projects -/

/-- A project is live, and what it holds suits. -/
def Holds (w : Workspace) (id : ProjectId) (suits : Holding → Prop) : Prop :=
  ∃ held, w.holding? id = some held ∧ suits held

/-- A project that is not stale is left as it is, and the files of a stale one are found anew. -/
theorem holding?_foldl_refreshProject (ids : List ProjectId) (h : w.holding? id = some held) :
    (ids.foldl refreshProject w).holding? id = some held ∨ id ∈ ids ∧
      ∃ files, (ids.foldl refreshProject w).holding? id = some { held with files, isStale := false } := by
  induction ids generalizing w held with
  | nil => exact .inl h
  | cons i ids ih =>
      obtain ⟨-, -, hroster, -⟩ := refreshProject_contents w i
      have hnext := congrFun (congrArg Roster.holding? hroster) id
      simp only [roster_holding?, Roster.modify] at hnext
      rw [h] at hnext
      split at hnext
      · rename_i hi
        rcases ih hnext with hsame | ⟨-, files, hfiles⟩
        · exact .inr ⟨by simp [hi], _, hsame⟩
        · exact .inr ⟨by simp [hi], files, hfiles⟩
      · rcases ih hnext with hsame | ⟨hid, hfiles⟩
        · exact .inl hsame
        · exact .inr ⟨List.mem_cons_of_mem i hid, hfiles⟩

theorem holding?_refresh (h : w.holding? id = some held) : w.refresh.holding? id = some held ∨
    held.isStale ∧ ∃ files, w.refresh.holding? id = some { held with files, isStale := false } := by
  unfold refresh
  rcases holding?_foldl_refreshProject _ h with hsame | ⟨hid, hfiles⟩
  · exact .inl hsame
  · refine .inr ⟨?_, hfiles⟩
    obtain ⟨project, hproject, rfl⟩ := Option.map_eq_some_iff.mp h
    simpa [projectHas, hproject, Project.holding] using (List.mem_filter.mp hid).2

theorem Holds.refresh (h : w.Holds id suits)
    (hsuits : ∀ held files, suits held → held.isStale → suits { held with files, isStale := false }) :
    w.refresh.Holds id suits := by
  obtain ⟨held, hheld, hsuit⟩ := h
  rcases holding?_refresh hheld with hsame | ⟨hstale, files, hfiles⟩
  · exact ⟨held, hsame, hsuit⟩
  · exact ⟨_, hfiles, hsuits held files hsuit hstale⟩

theorem Holds.isConfigured (h : w.Holds id suits) (hkind : ∀ held, suits held → held.kind ≠ .inferred) :
    w.registry.IsConfigured id := by
  obtain ⟨held, hheld, hsuit⟩ := h
  exact has_iff.mpr ⟨held, hheld, hkind held hsuit⟩

/-- Only a project that a root is taken from goes. -/
theorem Holds.unseat {root : Path} (h : w.Holds id suits) (hne : w.owner? root ≠ some id) :
    (w.unseat root).Holds id suits := by
  obtain ⟨held, hheld, hsuit⟩ := h
  exact ⟨held, holding?_unseat_eq_some.mpr ⟨hne, hheld⟩, hsuit⟩

theorem holds_foldl_absorb {i : ProjectId} (ht : t.live)
    (hkind : ∀ held, suits held → held.kind ≠ .inferred)
    (habsorbing : Absorbing t w.registry (detached ++ loose) guests i q waiting)
    (h : w.Holds id suits) : (waiting.foldl (absorb i) (w, detached)).1.Holds id suits := by
  induction waiting generalizing w detached with
  | nil => exact h
  | cons root waiting ih =>
      have hne : w.owner? root ≠ some id := by
        rcases habsorbing.waiting_placed root (by simp) with hroot | ⟨hnone, -⟩
        · exact habsorbing.sound.owner?_ne ht (h.isConfigured hkind) hroot
        · exact fun howner => absurd (hnone.symm.trans howner) (by simp)
      have hstep := absorbing_absorb habsorbing
      have hholds : (absorb i (w, detached) root).1.Holds id suits := by
        unfold Holds
        rw [holding?_absorb]
        exact h.unseat hne
      rw [List.foldl_cons]
      generalize absorb i (w, detached) root = state at hstep hholds ⊢
      exact ih hstep hholds

/-- A configured project stays what it is as documents are attached. -/
theorem endures_holds (ht : t.live) (guests : List Path) (id : ProjectId)
    (hkind : ∀ held, suits held → held.kind ≠ .inferred)
    (hsuits : ∀ held files, suits held → held.isStale → suits { held with files, isStale := false }) :
    Endures t guests (·.Holds id suits) where
  emit _ _ h := h
  lift w p _ h := by
    have hlifted : (w.modifyOpenFiles (·.remove p)).Holds id suits := h
    exact hlifted.refresh hsuits
  join _ _ _ h hjoined := by
    unfold Holds
    rw [(holding?_join? hjoined).1]
    exact h
  found {w p loose} hsound _ _ h := by
    have hopen : w.isOpen p := (hsound.moving_free p (by simp)).1
    obtain ⟨files, founded, hfounds, heq⟩ := foundProject_parts hopen
    have hle : id ≤ w.lastProject := hsound.live_le id (h.isConfigured hkind).isLive
    have hfounded : founded.Holds id suits := by
      obtain ⟨held, hheld, hsuit⟩ := h
      have hne : id ≠ w.lastProject + 1 := fun heq => Nat.not_succ_le_self _ (heq ▸ hle)
      refine ⟨held, ?_, hsuit⟩
      rw [hfounds.holding?_eq, if_neg hne]
      exact hheld
    rw [heq]
    exact holds_foldl_absorb ht hkind (hfounds.absorbing hsound) hfounded

/-! ### Documents that lost their project -/

/-- A document has no project, or all projects are up to date and it is in its own. -/
def Homed (w : Workspace) (p : Path) : Prop :=
  w.owner? p = none ∨ w.Fresh ∧ ∃ id held, w.owner? p = some id ∧ w.holding? id = some held ∧
    held.Contains p

theorem Fresh.absorb (hfresh : w.Fresh) (id : ProjectId) (detached : List Path) (root : Path) :
    (absorb id (w, detached) root).1.Fresh := by
  intro i held hheld
  rw [holding?_absorb] at hheld
  exact hfresh i held (holding?_unseat_eq_some.mp hheld).2

/-- A document stays in its project as that takes roots over, or it loses it with one of them. -/
theorem homed_absorb {root : Path} (ht : t.live)
    (habsorbing : Absorbing t w.registry (detached ++ loose) guests id q (root :: waiting))
    (hheld : ∃ held, w.holding? id = some held ∧ held.Contains root) (hfresh : w.Fresh)
    (h : w.Homed p) : (absorb id (w, detached) root).1.Homed p := by
  have hne := habsorbing.owner?_head_ne ht
  have hregistry := (absorb_eq id detached (habsorbing.waiting_open root (by simp))).1
  have hfresh' := hfresh.absorb id detached root
  have howner : (absorb id (w, detached) root).1.owner? p =
      if p = root then some id else (w.registry.unseat root).owner? p := by
    rw [← registry_owner?, hregistry]
    rfl
  by_cases hpr : p = root
  · subst hpr
    obtain ⟨held, hheld, hcontains⟩ := hheld
    refine .inr ⟨hfresh', id, held, by rw [howner, if_pos rfl], ?_, hcontains⟩
    rw [holding?_absorb]
    exact holding?_unseat_eq_some.mpr ⟨hne, hheld⟩
  · rw [if_neg hpr, Registry.unseat, owner?_evict] at howner
    split at howner
    · exact .inl howner
    · rename_i hstays
      rcases h with hnone | ⟨-, i, held, hi, hheld, hcontains⟩
      · exact .inl (howner.trans hnone)
      · refine .inr ⟨hfresh', i, held, howner.trans hi, ?_, hcontains⟩
        rw [holding?_absorb]
        refine holding?_unseat_eq_some.mpr ⟨fun hroot => hstays ?_, hheld⟩
        -- with the project of the root the document would have gone, as it stands in some list
        have hpq : p ≠ q := by
          rintro rfl
          have hi' : i = id := Option.some.inj (hi.symm.trans habsorbing.owner)
          exact hne (hi' ▸ hroot)
        have hopen := habsorbing.sound.owned_open p (by simp [hi])
        have hall : p ∈ w.openFiles.all :=
          (habsorbing.sound.owned_listed p hopen (by simp [hi])).resolve_right (by simpa using hpq)
        have hkept : p ∈ (w.openFiles.removeRoot root).all :=
          (OpenFiles.without_removeRoot w.openFiles root).keeps p hpr hall
        rw [registry_owner?, hroot]
        exact mem_members.mpr ⟨isLive_of_holding? hheld, hkept, hi⟩

theorem homed_foldl_absorb (ht : t.live)
    (habsorbing : Absorbing t w.registry (detached ++ loose) guests id q waiting)
    (hheld : ∃ held, w.holding? id = some held ∧ ∀ root ∈ waiting, held.Contains root)
    (hfresh : w.Fresh) (h : w.Homed p) : (waiting.foldl (absorb id) (w, detached)).1.Homed p := by
  induction waiting generalizing w detached with
  | nil => exact h
  | cons root waiting ih =>
      obtain ⟨held, hheld, hcontains⟩ := hheld
      have hne := habsorbing.owner?_head_ne ht
      have hstep := absorbing_absorb habsorbing
      have hhomed := homed_absorb ht habsorbing ⟨held, hheld, hcontains root (by simp)⟩ hfresh h
      have hfresh' := hfresh.absorb id detached root
      have hholding : (absorb id (w, detached) root).1.holding? = (w.unseat root).holding? :=
        holding?_absorb ..
      rw [List.foldl_cons]
      generalize absorb id (w, detached) root = state at hstep hhomed hfresh' hholding ⊢
      refine ih hstep ⟨held, ?_, fun r hr => hcontains r (by simp [hr])⟩ hfresh' hhomed
      rw [hholding]
      exact holding?_unseat_eq_some.mpr ⟨hne, hheld⟩

theorem Founds.homed {files : List Path} {founded : Workspace} (hfounds : Founds q files w founded)
    (hsound : Sound t w.registry loose [q] guests) (hfresh : w.Fresh) (h : w.Homed p) :
    founded.Fresh ∧ founded.Homed p := by
  have hfresh' : founded.Fresh := by
    intro i held hheld
    rw [hfounds.holding?_eq] at hheld
    split at hheld
    · exact Option.some.inj hheld ▸ rfl
    · exact hfresh i held hheld
  refine ⟨hfresh', ?_⟩
  unfold Homed
  rw [hfounds.owner?_eq]
  split
  · rename_i hpq
    refine .inr ⟨hfresh', _, _, rfl, hfounds.holding?_new, .inr ?_⟩
    simp [hpq]
  · refine h.imp_right fun ⟨_, i, held, hi, hheld, hcontains⟩ => ⟨hfresh', i, held, hi, ?_, hcontains⟩
    have hne : i ≠ w.lastProject + 1 := fun heq =>
      Nat.not_succ_le_self _ (heq ▸ hsound.owner_le p i hi)
    rw [hfounds.holding?_eq, if_neg hne]
    exact hheld

/-- A document that lost its project is in its project once it has one again. -/
theorem endures_homed (ht : t.live) (guests : List Path) (p : Path) :
    Endures t guests (·.Homed p) where
  emit _ _ h := h
  lift w q _ h := by
    rcases h with hnone | ⟨hfresh, hcontained⟩
    · refine .inl ?_
      rw [← registry_owner?, registry_refresh]
      exact hnone
    · have hlifted : (w.modifyOpenFiles (·.remove q)).refresh = w.modifyOpenFiles (·.remove q) :=
        refresh_eq_self hfresh
      rw [hlifted]
      exact .inr ⟨hfresh, hcontained⟩
  join {w joined q loose} hsound hfresh hnone h hjoined := by
    obtain ⟨id, held, hheld, hcontains, -, -, howner⟩ :=
      join?_contains (hsound.moving_free q (by simp)).1 hjoined
    have hholding : joined.holding? = w.holding? := (holding?_join? hjoined).1
    have hfresh' : joined.Fresh := by
      unfold Fresh
      rw [hholding]
      exact hfresh
    unfold Homed
    rw [howner, hholding]
    split
    · rename_i hpq
      subst hpq
      exact .inr ⟨hfresh', id, held, rfl, hheld, hcontains⟩
    · exact h.imp_right fun ⟨_, hcontained⟩ => ⟨hfresh', hcontained⟩
  found {w q loose} hsound hfresh hnone h := by
    have hopen : w.isOpen q := (hsound.moving_free q (by simp)).1
    obtain ⟨files, founded, hfounds, heq⟩ := foundProject_parts hopen
    obtain ⟨hfresh', hfounded⟩ := hfounds.homed hsound hfresh h
    rw [heq]
    exact homed_foldl_absorb ht (hfounds.absorbing hsound)
      ⟨_, hfounds.holding?_new, fun root hroot => (hfounds.mem_reachedRoots.mp hroot).2⟩ hfresh' hfounded

end ProjectTracker.Workspace
