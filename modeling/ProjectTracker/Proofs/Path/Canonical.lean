import Mathlib.Data.List.Induction
import ProjectTracker.Proofs.FileSystem.Listing
import ProjectTracker.Proofs.Path.Normalizing

/-!
When normal paths are canonical: taken as paths again they stay what they are, and a name next to them is read where
they are. For that the base directory must not come in twice. It never does where it is absolute, and it does no harm
where it is the place itself; from any other base directory a normal path means another place than the one that it
was made for.
-/

namespace ProjectTracker

namespace Path

/-- What cleaning has gathered at the end of a path, the last component first. -/
def gathered (p : Path) : List Component :=
  p.components.foldl cleanStep []

theorem clean_eq_of_gathered {p : Path} (h : p.gathered ≠ []) : p.clean = ⟨p.gathered.reverse⟩ := by
  rw [clean_eq]
  exact if_neg h

theorem clean_eq_of_gathered_eq_nil {p : Path} (h : p.gathered = []) : p.clean = ⟨[.here]⟩ := by
  rw [clean_eq]
  exact if_pos h

theorem foldl_filter_here (done components : List Component) :
    (components.filter (· ≠ .here)).foldl cleanStep done = components.foldl cleanStep done := by
  induction components generalizing done with
  | nil => rfl
  | cons c components ih =>
      by_cases hc : c = .here
      · rw [List.filter_cons_of_neg (by simpa using hc), ih, List.foldl_cons, hc]
        rfl
      · rw [List.filter_cons_of_pos (by simpa using hc), List.foldl_cons, List.foldl_cons, ih]

/-- A path seen from a base directory goes on from what the base directory comes to. -/
theorem gathered_join {base p : Path} (hp : p.isAbsolute = false) :
    (base.join p).gathered = p.components.foldl cleanStep base.gathered := by
  have hp' : ¬ p.isAbsolute = true := by simp [hp]
  unfold gathered join
  rw [if_neg hp']
  split
  · rename_i hbase
    rw [hbase]
    rfl
  · rw [List.foldl_append, foldl_filter_here]

theorem components_join_name (p : Path) (text : String) :
    (p.join ⟨[.name text]⟩).components = p.components ++ [.name text] := by
  unfold join
  split
  · rename_i habsolute
    simp [isAbsolute] at habsolute
  · split
    · rename_i hnil
      rw [hnil]
      rfl
    · simp

/-! ### Clean paths -/

theorem foldl_names (names : List String) (done : List Component) :
    (names.map Component.name).foldl cleanStep done = (names.map Component.name).reverse ++ done := by
  induction names generalizing done with
  | nil => rfl
  | cons text names ih =>
      rw [List.map_cons, List.foldl_cons, ih, List.reverse_cons, List.append_assoc]
      rfl

theorem foldl_parents (ups above : Nat) :
    (List.replicate ups Component.parent).foldl cleanStep (List.replicate above .parent) =
      List.replicate (above + ups) .parent := by
  induction ups generalizing above with
  | zero => rfl
  | succ ups ih =>
      have hstep : cleanStep (List.replicate above .parent) .parent = List.replicate (above + 1) .parent := by
        cases above <;> rfl
      rw [List.replicate_succ, List.foldl_cons, hstep, ih]
      congr 1
      omega

theorem Descends.gathered_eq {p : Path} (h : p.Descends) : p.gathered = p.components.reverse := by
  obtain ⟨names, hnames⟩ := h
  rw [gathered, hnames, List.foldl_cons, foldl_names, List.reverse_cons]
  rfl

theorem Climbs.gathered_eq {p : Path} (h : p.Climbs) : p.gathered = p.components.reverse := by
  obtain ⟨ups, names, hnames⟩ := h
  have hups := foldl_parents ups 0
  rw [List.replicate_zero, Nat.zero_add] at hups
  rw [gathered, hnames, List.foldl_append, hups, foldl_names, List.reverse_append, List.reverse_replicate]

/-- A path that is clean, or leads nowhere. -/
def Tidy (p : Path) : Prop :=
  p.Descends ∨ p.Climbs

theorem Tidy.clean_eq {p : Path} (h : p.Tidy) (hne : p.components ≠ []) : p.clean = p := by
  have hgathered : p.gathered = p.components.reverse := by
    rcases h with hdescends | hclimbs
    · exact hdescends.gathered_eq
    · exact hclimbs.gathered_eq
  rw [clean_eq_of_gathered (by simpa [hgathered] using hne), hgathered, List.reverse_reverse]

/-- A name below a tidy path. -/
theorem Tidy.append_name {p : Path} (h : p.Tidy) (text : String) : Tidy ⟨p.components ++ [.name text]⟩ := by
  rcases h with ⟨names, hnames⟩ | ⟨ups, names, hnames⟩
  · exact .inl ⟨names ++ [text], by simp [hnames]⟩
  · exact .inr ⟨ups, names ++ [text], by simp [hnames]⟩

theorem parent?_eq_some {p parent : Path} (h : p.parent? = some parent) :
    ∃ c, c ≠ .root ∧ p.components = parent.components ++ [c] := by
  unfold parent? at h
  split at h
  · simp at h
  · simp at h
  · rename_i c hroot hlast
    obtain rfl := Option.some.inj h
    obtain ⟨above, habove⟩ := List.getLast?_eq_some_iff.mp hlast
    refine ⟨c, hroot, ?_⟩
    rw [habove, List.dropLast_concat]

/-- The way up from a tidy path. -/
theorem Tidy.parent {p parent : Path} (h : p.Tidy) (hparent : p.parent? = some parent) : parent.Tidy := by
  obtain ⟨c, hc, hcomponents⟩ := parent?_eq_some hparent
  rcases h with ⟨names, hnames⟩ | ⟨ups, names, hnames⟩
  · rw [hcomponents] at hnames
    rcases List.eq_nil_or_concat names with rfl | ⟨above, text, rfl⟩
    · -- the root itself has nothing above
      exact absurd (List.append_singleton_inj.mp (hnames.trans (List.nil_append _).symm)).2 hc
    · rw [List.concat_eq_append, List.map_append, ← List.cons_append] at hnames
      exact .inl ⟨above, (List.append_singleton_inj.mp hnames).1⟩
  · rw [hcomponents] at hnames
    rcases List.eq_nil_or_concat names with rfl | ⟨above, text, rfl⟩
    · cases ups with
      | zero => simp at hnames
      | succ ups =>
          rw [List.map_nil, List.append_nil, List.replicate_succ'] at hnames
          exact .inr ⟨ups, [], by simpa using (List.append_singleton_inj.mp hnames).1⟩
    · rw [List.concat_eq_append, List.map_append, ← List.append_assoc] at hnames
      exact .inr ⟨ups, above, (List.append_singleton_inj.mp hnames).1⟩

/-! ### Base directories -/

/-- A base directory that makes no difference to a clean path: it is not asked for, or it is the place itself. -/
def Fixed (base : Path) : Prop :=
  base.clean.isAbsolute ∨ base.clean = ⟨[.here]⟩

theorem gathered_eq_nil_of_clean_eq_here {p : Path} (h : p.clean = ⟨[.here]⟩) : p.gathered = [] := by
  by_contra hne
  have hnil : Settled [] := rfl
  have hsettled : Settled p.gathered := settled_foldl hnil p.components
  rw [clean_eq_of_gathered hne] at h
  have hhere : p.gathered = [.here] := by
    have hreverse : p.gathered.reverse = [.here] := congrArg components h
    simpa using congrArg List.reverse hreverse
  rw [hhere] at hsettled
  have hdropped : [] = [Component.here] := hsettled
  simp at hdropped

theorem getLast?_gathered {p : Path} (h : p.clean.isAbsolute) : p.gathered.getLast? = some .root := by
  have hne : p.gathered ≠ [] := by
    intro hnil
    rw [clean_eq_of_gathered_eq_nil hnil] at h
    exact absurd h (by decide)
  rw [clean_eq_of_gathered hne] at h
  rw [← List.head?_reverse]
  exact of_decide_eq_true h

theorem isAbsolute_of_getLast?_gathered {p : Path} (h : p.gathered.getLast? = some .root) :
    p.clean.isAbsolute := by
  have hne : p.gathered ≠ [] := by
    intro hnil
    simp [hnil] at h
  rw [clean_eq_of_gathered hne]
  exact decide_eq_true (List.head?_reverse.trans h)

theorem isAbsolute_clean_join {base : Path} (h : base.clean.isAbsolute) (p : Path) :
    (base.join p).clean.isAbsolute := by
  cases hp : p.isAbsolute with
  | true => exact isAbsolute_clean (by rwa [join_of_isAbsolute _ hp])
  | false =>
      apply isAbsolute_of_getLast?_gathered
      rw [gathered_join hp]
      exact getLast?_foldl (getLast?_gathered h) _

/-- Seen from a fixed base directory a path comes to what it comes to by itself, if it is absolute in case the base
directory is. -/
theorem Fixed.clean_join {base : Path} (h : base.Fixed) {p : Path} (hp : base.clean.isAbsolute → p.isAbsolute) :
    (base.join p).clean = p.clean := by
  cases habsolute : p.isAbsolute with
  | true => rw [join_of_isAbsolute _ habsolute]
  | false =>
      have hhere : base.clean = ⟨[.here]⟩ := by
        rcases h with hbase | hhere
        · rw [hp hbase] at habsolute
          exact absurd habsolute (by decide)
        · exact hhere
      have hgathered : (base.join p).gathered = p.gathered := by
        rw [gathered_join habsolute, gathered_eq_nil_of_clean_eq_here hhere, gathered]
      unfold gathered at hgathered
      rw [Path.clean_eq, Path.clean_eq, hgathered]

end Path

namespace Normalizer

/-- A name as it stands in a normal path. -/
def foldName (n : Normalizer) (text : String) : String :=
  if n.caseSensitive then text else String.ofList (Text.toLower text.toList)

/-- A component as it stands in a normal path. -/
def foldComponent (n : Normalizer) (c : Component) : Component :=
  if n.caseSensitive then c else lowerComponent c

section

variable {n : Normalizer}

theorem normalize_eq (n : Normalizer) (p : Path) :
    n.normalize p = ⟨(n.base.join p).clean.components.map n.foldComponent⟩ := by
  unfold normalize foldComponent
  cases n.caseSensitive <;> simp

theorem foldComponent_name (n : Normalizer) (text : String) :
    n.foldComponent (.name text) = .name (n.foldName text) := by
  unfold foldComponent foldName
  split <;> rfl

theorem foldComponent_foldComponent (n : Normalizer) (c : Component) :
    n.foldComponent (n.foldComponent c) = n.foldComponent c := by
  unfold foldComponent
  split
  · rfl
  · exact lowerComponent_lowerComponent c

theorem foldComponent_parent (n : Normalizer) : n.foldComponent .parent = .parent := by
  unfold foldComponent
  split <;> rfl

theorem map_foldComponent_normalize (n : Normalizer) (p : Path) :
    (n.normalize p).components.map n.foldComponent = (n.normalize p).components := by
  rw [normalize_eq, List.map_map]
  apply List.map_congr_left
  intro c _
  exact n.foldComponent_foldComponent c

theorem clean_normalize (n : Normalizer) (p : Path) : (n.normalize p).clean = n.normalize p := by
  unfold normalize
  dsimp only
  split
  · exact Path.clean_clean _
  · rw [clean_lowerComponent, Path.clean_clean]

theorem isAbsolute_normalize (h : n.base.clean.isAbsolute) (p : Path) : (n.normalize p).isAbsolute := by
  have hjoin := Path.isAbsolute_clean_join h p
  unfold normalize
  dsimp only
  split
  · exact hjoin
  · exact isAbsolute_lowerComponent hjoin

/-- From a fixed base directory a clean path is only folded. -/
theorem normalize_of_clean (h : n.base.Fixed) {p : Path} (habsolute : n.base.clean.isAbsolute → p.isAbsolute)
    (hclean : p.clean = p) : n.normalize p = ⟨p.components.map n.foldComponent⟩ := by
  rw [normalize_eq, h.clean_join habsolute, hclean]

theorem normalize_normalize_of_fixed (h : n.base.Fixed) (p : Path) :
    n.normalize (n.normalize p) = n.normalize p := by
  rw [normalize_of_clean h (fun hbase => isAbsolute_normalize hbase p) (n.clean_normalize p),
    map_foldComponent_normalize]

theorem tidy_parent_normalize {p parent : Path} (hparent : (n.normalize p).parent? = some parent) :
    parent.Tidy := by
  rcases n.normalize_cases p with hdescends | hclimbs | hhere
  · exact Path.Tidy.parent (.inl hdescends) hparent
  · exact Path.Tidy.parent (.inr hclimbs) hparent
  · obtain rfl : ⟨[]⟩ = parent := by
      rw [hhere] at hparent
      exact Option.some.inj hparent
    exact .inr ⟨0, [], rfl⟩

/-- Names next to a normal path. -/
theorem resolveIn_of_fixed (h : n.base.Fixed) {p parent : Path} (hparent : (n.normalize p).parent? = some parent)
    (text : String) : n.resolveIn parent ⟨[.name text]⟩ = parent.join ⟨[.name (n.foldName text)]⟩ := by
  obtain ⟨c, hc, hcomponents⟩ := Path.parent?_eq_some hparent
  have hjoin : parent.join ⟨[.name text]⟩ = ⟨parent.components ++ [.name text]⟩ :=
    congrArg Path.mk (Path.components_join_name parent text)
  have hjoin' : parent.join ⟨[.name (n.foldName text)]⟩ = ⟨parent.components ++ [.name (n.foldName text)]⟩ :=
    congrArg Path.mk (Path.components_join_name parent _)
  have hclean : Path.clean ⟨parent.components ++ [.name text]⟩ = ⟨parent.components ++ [.name text]⟩ :=
    ((tidy_parent_normalize hparent).append_name text).clean_eq (by simp)
  have habsolute (hbase : n.base.clean.isAbsolute) :
      Path.isAbsolute ⟨parent.components ++ [.name text]⟩ := by
    have hnormal : (n.normalize p).components.head? = some .root :=
      of_decide_eq_true (isAbsolute_normalize hbase p)
    rw [hcomponents] at hnormal
    apply decide_eq_true
    cases hdirs : parent.components with
    | nil =>
        -- a normal path that is absolute and has a parent starts with it
        rw [hdirs] at hnormal
        exact absurd (Option.some.inj hnormal) hc
    | cons first rest =>
        rw [hdirs] at hnormal
        exact hnormal
  have hfolded : parent.components.map n.foldComponent = parent.components := by
    have hall := n.map_foldComponent_normalize p
    rw [hcomponents, List.map_append] at hall
    exact (List.append_inj' hall rfl).1
  unfold resolveIn
  rw [hjoin, hjoin', normalize_of_clean h habsolute hclean, List.map_append, hfolded, List.map_singleton,
    foldComponent_name]

end

end Normalizer

/-! ### Other base directories -/

namespace Path

theorem count_parent_le_foldl {components : List Component} (h : .root ∉ components) (done : List Component) :
    done.count .parent ≤ (components.foldl cleanStep done).count .parent := by
  induction components generalizing done with
  | nil => exact Nat.le_refl _
  | cons c components ih =>
      rw [List.mem_cons, not_or] at h
      refine Nat.le_trans ?_ (ih h.2 (cleanStep done c))
      cases c with
      | root => exact absurd rfl h.1
      | here => exact Nat.le_refl _
      | name text => simp [cleanStep]
      | parent =>
          match done with
          | [] => simp [cleanStep]
          | .root :: rest => exact Nat.le_refl _
          | .here :: rest => simp [cleanStep]
          | .parent :: rest => simp [cleanStep]
          | .name text :: rest => simp [cleanStep]

theorem count_parent_clean (p : Path) : p.clean.components.count .parent = p.gathered.count .parent := by
  by_cases h : p.gathered = []
  · rw [clean_eq_of_gathered_eq_nil h, h]
    rfl
  · rw [clean_eq_of_gathered h, List.count_reverse]

/-- Steps up that take back the names which a path ends with. -/
theorem foldl_parents_names (names : List String) (done : List Component) :
    (List.replicate names.length Component.parent).foldl cleanStep
      ((names.map Component.name).reverse ++ done) = done := by
  induction names using List.reverseRecOn with
  | nil => rfl
  | append_singleton names text ih =>
      rw [List.length_append, List.length_singleton, List.replicate_succ, List.foldl_cons, List.map_append,
        List.reverse_append]
      exact ih

end Path

namespace Normalizer

/-- Normal paths are canonical: each is its own normal form, and a name that is read in the directory of one stands
in that directory. -/
structure Canonical (n : Normalizer) : Prop where
  normalize_normalize : ∀ p, n.normalize (n.normalize p) = n.normalize p
  resolveIn_parent : ∀ p parent, (n.normalize p).parent? = some parent → ∀ text,
    n.resolveIn parent ⟨[.name text]⟩ = parent.join ⟨[.name (n.foldName text)]⟩

theorem canonical_of_fixed {n : Normalizer} (h : n.base.Fixed) : n.Canonical :=
  ⟨normalize_normalize_of_fixed h, fun _ _ hparent => resolveIn_of_fixed h hparent⟩

section

variable {n : Normalizer} {ups : Nat} {names : List String}

theorem normalize_of_gathered_eq_nil {p : Path} (h : (n.base.join p).gathered = []) :
    n.normalize p = ⟨[.here]⟩ := by
  rw [normalize_eq, Path.clean_eq_of_gathered_eq_nil h]
  unfold foldComponent
  split <;> rfl

theorem normalize_of_gathered {p : Path} (h : (n.base.join p).gathered ≠ []) :
    n.normalize p = ⟨(n.base.join p).gathered.reverse.map n.foldComponent⟩ := by
  rw [normalize_eq, Path.clean_eq_of_gathered h]

theorem count_parent_normalize (p : Path) :
    (n.normalize p).components.count .parent = (n.base.join p).clean.components.count .parent := by
  rw [normalize_eq]
  simp only [List.count_eq_countP, List.countP_map]
  congr 1
  funext c
  unfold foldComponent
  split
  · rfl
  · cases c <;> rfl

/-- From the names of a base directory steps up lead back to where it starts. -/
theorem gathered_join_parents
    (h : n.base.gathered = (names.map Component.name).reverse ++ List.replicate ups .parent) :
    (n.base.join ⟨List.replicate names.length .parent⟩).gathered = List.replicate ups .parent := by
  have hrelative : Path.isAbsolute ⟨List.replicate names.length .parent⟩ = false := by
    cases names <;> rfl
  rw [Path.gathered_join hrelative, h, Path.foldl_parents_names]

/-- Where a base directory goes down by names, the place that it starts from is another one when it is seen from
there. -/
theorem not_canonical_of_names (h : n.base.gathered = (names.map Component.name).reverse) (hne : names ≠ []) :
    ¬ n.Canonical := by
  intro hcanonical
  have hup : (n.base.join ⟨List.replicate names.length .parent⟩).gathered = List.replicate 0 .parent :=
    gathered_join_parents (by rw [List.replicate_zero, List.append_nil, h])
  have hgathered : (n.base.join ⟨[.here]⟩).gathered = n.base.gathered := by
    rw [Path.gathered_join rfl]
    rfl
  have hbase : n.base.gathered ≠ [] := by simpa [h] using hne
  have hstable := hcanonical.normalize_normalize ⟨List.replicate names.length .parent⟩
  rw [normalize_of_gathered_eq_nil hup, normalize_of_gathered (hgathered ▸ hbase), hgathered, h,
    List.reverse_reverse, List.map_map] at hstable
  cases names with
  | nil => exact hne rfl
  | cons text names => simp [foldComponent_name] at hstable

/-- Where a base directory starts with steps up, it takes one step less to the directory above, but the base directory
still has all of them. -/
theorem not_canonical_of_parents
    (h : n.base.gathered = (names.map Component.name).reverse ++ List.replicate (ups + 1) .parent) :
    ¬ n.Canonical := by
  intro hcanonical
  have hup := gathered_join_parents h
  have hnormal : n.normalize ⟨List.replicate names.length .parent⟩ = ⟨List.replicate (ups + 1) .parent⟩ := by
    rw [normalize_of_gathered (by simp [hup]), hup, List.reverse_replicate, List.map_replicate,
      foldComponent_parent]
  have hparent : (n.normalize ⟨List.replicate names.length .parent⟩).parent? =
      some ⟨List.replicate ups .parent⟩ := by
    rw [hnormal, Path.parent?, List.replicate_succ']
    simp
  have hbeside := hcanonical.resolveIn_parent _ _ hparent "a"
  generalize hentry : Path.join ⟨List.replicate ups .parent⟩ ⟨[.name "a"]⟩ = entry at hbeside
  have hcomponents : entry.components = List.replicate ups .parent ++ [.name "a"] := by
    rw [← hentry, Path.components_join_name]
  have hentry' : entry.isAbsolute = false := by
    rw [Path.isAbsolute, hcomponents]
    cases ups <;> rfl
  have hlow : ups + 1 ≤ (n.normalize entry).components.count .parent := by
    calc ups + 1
        ≤ n.base.gathered.count .parent := by rw [h, List.count_append, List.count_replicate_self]; omega
      _ ≤ (entry.components.foldl Path.cleanStep n.base.gathered).count .parent := by
          apply Path.count_parent_le_foldl
          simp [hcomponents]
      _ = (n.normalize entry).components.count .parent := by
          rw [← Path.gathered_join hentry', count_parent_normalize, Path.count_parent_clean]
  have hhigh : (n.normalize entry).components.count .parent = ups := by
    unfold resolveIn at hbeside
    rw [hentry] at hbeside
    rw [hbeside, Path.components_join_name, List.count_append, List.count_replicate_self]
    simp
  omega

/-- A base directory that goes up or down is not canonical: its names or its steps up come in twice. -/
theorem not_canonical_of_climbs
    (h : n.base.gathered = (names.map Component.name).reverse ++ List.replicate ups .parent)
    (hne : n.base.gathered ≠ []) : ¬ n.Canonical := by
  cases ups with
  | zero =>
      rw [List.replicate_zero, List.append_nil] at h
      refine not_canonical_of_names h ?_
      rintro rfl
      exact hne h
  | succ ups => exact not_canonical_of_parents h

theorem fixed_of_canonical (h : n.Canonical) : n.base.Fixed := by
  rcases n.base.clean_cases with ⟨names, hnames⟩ | ⟨ups, names, hnames⟩ | hhere
  · left
    apply decide_eq_true
    rw [hnames]
    rfl
  · have hne : n.base.gathered ≠ [] := by
      intro hnil
      rw [Path.clean_eq_of_gathered_eq_nil hnil] at hnames
      cases ups <;> cases names <;> simp [List.replicate_succ] at hnames
    rw [Path.clean_eq_of_gathered hne] at hnames
    replace hnames : n.base.gathered.reverse = List.replicate ups .parent ++ names.map Component.name := hnames
    have hgathered : n.base.gathered = (names.map Component.name).reverse ++ List.replicate ups .parent := by
      rw [← List.reverse_reverse n.base.gathered, hnames, List.reverse_append, List.reverse_replicate]
    exact absurd h (not_canonical_of_climbs hgathered hne)
  · exact .inr hhere

/-- Normal paths are canonical from just those base directories that come to an absolute path or to the place itself,
with regard to case or without. -/
theorem canonical_iff (n : Normalizer) :
    (n.base.isAbsolute → n.Canonical) ∧
      (n.Canonical ↔ n.base.clean.isAbsolute ∨ n.base.clean = ⟨[.here]⟩) :=
  ⟨fun h => canonical_of_fixed (.inl (Path.isAbsolute_clean h)), fixed_of_canonical, canonical_of_fixed⟩

/-- From a relative base directory a normal path is another one when it is made normal again. -/
example :
    let n : Normalizer := ⟨⟨[.name "w"]⟩, true⟩
    let p := n.normalize ⟨[.name "a"]⟩
    p = ⟨[.name "w", .name "a"]⟩ ∧ n.normalize p = ⟨[.name "w", .name "w", .name "a"]⟩ := by
  decide

end

end Normalizer

end ProjectTracker
