import ProjectTracker.Proofs.Workspace.Coherence
import ProjectTracker.Proofs.Workspace.Handling
/-!
What holds of documents for as long as they are tracked. Few things are done to a document, so that what these
keep of it holds of all documents in whatever state a workspace gets into. Only the watch of a document can
be lost besides, and only if its file is deleted while it is open.
-/

namespace ProjectTracker

namespace Document

/-- What is done to a tracked document, other than that its watch is taken from it. -/
inductive Turns : Document → Document → Prop where
  | fold (d : Document) : Turns d d.fold
  | edit {d d' : Document} {c : Change} (h : d.edit c = .ok d') : Turns d d'
  | reload (d : Document) (text : Text) : Turns d (d.reload text)
  | fingerprinted (d : Document) : Turns d d.fingerprinted.1
  | setOpen (d : Document) (isOpen : Bool) : Turns d { d with isOpen }
  | setOwner (d : Document) (owner? : Option ProjectId) : Turns d { d with owner? }

/-- A property that every new document has and that lasts, whatever is done to it. -/
structure Lasting (property : Path → Document → Prop) : Prop where
  create : ∀ p text limits capacity id,
    property p { create (.ofPath p) text limits capacity with watch? := some id }
  turns : ∀ {p d d'}, Turns d d' → property p d → property p d'

/-- A property that the loss of the watch does not end. -/
def Outlasts (property : Path → Document → Prop) (p : Path) : Prop :=
  ∀ d, property p d → property p { d with watch? := none }

variable {property : Path → Document → Prop} {p : Path} {d : Document}

theorem Lasting.reloadIfChanged (h : Lasting property) (hd : property p d) (text : Text) :
    property p (d.reloadIfChanged text).1 := by
  have hfound := h.turns (.fingerprinted d) hd
  rcases d.reloadIfChanged_cases text with hkept | hloaded
  · rwa [hkept]
  · rw [hloaded]
    exact h.turns (.reload ..) hfound

end Document

namespace Workspace

open Document

/-- All tracked documents have a property. -/
def AllDocuments (property : Path → Document → Prop) (w : Workspace) : Prop :=
  ∀ p d, w.documents.get? p = some d → property p d

/-- The documents of a workspace have a property if those of a former one had it. -/
def Preserves (property : Path → Document → Prop) (w w' : Workspace) : Prop :=
  w.AllDocuments property → w'.AllDocuments property

variable {property : Path → Document → Prop} {w w' w'' : Workspace} {p : Path} {op : Operation}
  {ops : List Operation}

theorem Preserves.trans (h : Preserves property w w') (h' : Preserves property w' w'') :
    Preserves property w w'' :=
  fun hw => h' (h hw)

theorem Preserves.of_eq (h : w'.documents = w.documents) : Preserves property w w' :=
  fun hw p d hd => hw p d (h ▸ hd)

theorem preserves_modifyDocument {f : Document → Document}
    (h : ∀ d, w.documents.get? p = some d → property p d → property p (f d)) :
    Preserves property w (w.modifyDocument p f) := by
  intro hw q d hd
  rw [get?_modifyDocument] at hd
  split at hd
  · subst q
    obtain ⟨d₀, hd₀, rfl⟩ := Option.map_eq_some_iff.mp hd
    exact h d₀ hd₀ (hw p d₀ hd₀)
  · exact hw q d hd

theorem get?_unwatch (w : Workspace) (p q : Path) : (w.unwatch p).documents.get? q =
    if p = q then (w.documents.get? q).map fun d => { d with watch? := none }
    else w.documents.get? q := by
  unfold unwatch
  split
  · rename_i hnone
    split
    · subst q
      cases hd : w.documents.get? p with
      | none => rfl
      | some d =>
          rw [hd, Option.bind_some] at hnone
          rw [Option.map_some, ← hnone]
    · rfl
  · exact get?_modifyDocument ..

/-- A document is dropped, and its watch does not matter any more. -/
theorem preserves_forget (w : Workspace) (p : Path) : Preserves property w (w.forget p) := by
  intro hw q d hd
  rw [get?_forget] at hd
  split at hd
  · simp at hd
  · rename_i hq
    rw [get?_unwatch, if_neg hq] at hd
    exact hw q d hd

theorem preserves_unwatch (h : Outlasts property p) : Preserves property w (w.unwatch p) := by
  intro hw q d hd
  rw [get?_unwatch] at hd
  split at hd
  · subst q
    obtain ⟨d₀, hd₀, rfl⟩ := Option.map_eq_some_iff.mp hd
    exact h d₀ (hw p d₀ hd₀)
  · exact hw q d hd

section Lasting

variable (h : Lasting property)

include h

theorem preserves_turns {f : Document → Document} (hf : ∀ d, Turns d (f d)) :
    Preserves property w (w.modifyDocument p f) :=
  preserves_modifyDocument fun d _ hd => h.turns (hf d) hd

theorem preserves_setOwner (w : Workspace) (p : Path) (owner? : Option ProjectId) :
    Preserves property w (w.setOwner p owner?) := by
  intro hw q d hd
  rw [get?_setOwner] at hd
  split at hd
  · obtain ⟨d₀, hd₀, rfl⟩ := Option.map_eq_some_iff.mp hd
    exact h.turns (.setOwner ..) (hw q d₀ hd₀)
  · exact hw q d hd

theorem preserves_track (w : Workspace) (p : Path) (text : Text) :
    Preserves property w (w.track p text) := by
  intro hw q d hd
  by_cases hq : q = p
  · subst q
    have htracked : (w.track p text).documents.get? p = some
        { Document.create (.ofPath p) text w.settings.history w.settings.nodeCapacity with
          watch? := some (w.watch (.file (.ofPath p)) (.document p)).2 } := by
      simp [track, Store.get?, Store.insert, Document.create, Spelling.ofPath]
      rfl
    obtain rfl := Option.some.inj (htracked.symm.trans hd)
    exact h.create ..
  · exact hw q d (w.get?_track hq text ▸ hd)

theorem oversees_preserves : Oversees (Preserves property) where
  of_eq := .of_eq
  trans := .trans
  fold _ _ := preserves_turns h .fold
  track {w p} text _ := preserves_track h w p text
  setOwner := preserves_setOwner h
  forget {w p} _ := preserves_forget w p

theorem preserves_reloadIfChanged (text : Text) {d : Document} (hd : w.documents.get? p = some d) :
    Preserves property w (w.modifyDocument p fun _ => (d.reloadIfChanged text).1) :=
  preserves_modifyDocument fun d' hd' hproperty => by
    obtain rfl : d' = d := Option.some.inj (hd'.symm.trans hd)
    exact h.reloadIfChanged hproperty text

theorem preserves_shut (w : Workspace) (p : Path) (text : Text) :
    Preserves property w (w.shut p text) := by
  have hreloaded : Preserves property w (w.modifyDocument p (·.reload text)) :=
    preserves_turns h fun d => .reload d text
  have hmarked := hreloaded.trans ((oversees_preserves h).markStaleAround _ p)
  have hunlisted := hmarked.trans ((oversees_preserves h).modifyOpenFiles _ (·.removeFirst p))
  have hvacated := hunlisted.trans (preserves_setOwner h _ p none)
  exact hvacated.trans (preserves_turns h fun d => .setOpen d false)

end Lasting

/-! ### Operations and runs -/

/-- The file of a document is deleted while the document is open, which its watch reports. -/
def Bereaves (p : Path) (w : Workspace) : Operation → Prop
  | .fileChanged q .deleted => w.isOpen p ∧ .document p ∈ w.purposesAt (w.normalize q)
  | _ => False

/-- All that an operation does to a document is what the property lasts through, unless its file is deleted. -/
theorem touches_preserves (h : Lasting property) (hop : ∀ p, Bereaves p w op → Outlasts property p) :
    Touches (Preserves property) w op := by
  have hedited (v : Workspace) (p : Path) (d d' : Document) (edits : List Edit)
      (hd : v.documents.get? p = some d) (hedits : d.editAll edits = .ok d') :
      Preserves property v (v.modifyDocument p fun _ => d') :=
    preserves_modifyDocument fun d₀ hd₀ hproperty => by
      obtain rfl : d₀ = d := Option.some.inj (hd₀.symm.trans hd)
      exact editAll_keeps (property p) (fun hedit => h.turns (.edit hedit)) hproperty hedits
  cases op with
  | openFile p text? =>
      exact ⟨fun d text _ hd => preserves_reloadIfChanged h text hd,
        fun v => preserves_turns h fun d => .setOpen d true⟩
  | closeFile p => exact fun text _ => preserves_shut h w _ text
  | changeFile p edits => exact fun v => hedited v _
  | changeRange p range text => exact fun v => hedited v _
  | fileChanged p change =>
      intro v q hq hsame
      refine (oversees_preserves h).documentChanged change (fun hdeleted hopen => ?_)
        fun _ d text hd => preserves_reloadIfChanged h text hd
      subst hdeleted
      exact preserves_unwatch (hop q ⟨hsame ▸ hopen, hq⟩)
  | _ => trivial

theorem preserves_perform (h : Lasting property) (hop : ∀ p, Bereaves p w op → Outlasts property p) :
    Preserves property w (w.perform op) :=
  (oversees_preserves h).perform (touches_preserves h hop)

/-- What lasts, all documents have in all states, if it does not need the watches of files that are
deleted. -/
theorem allDocuments_run (h : Lasting property) (hw : w.AllDocuments property)
    (hops : ∀ p, Outlasts property p ∨ w.Avoids ops (Bereaves p)) :
    (w.run ops).AllDocuments property := by
  induction ops using List.reverseRecOn with
  | nil => exact hw
  | append_singleton ops op ih =>
      rw [run_concat]
      refine preserves_perform h (fun p hbereaves => ?_)
        (ih fun p => (hops p).imp_right fun havoids => (avoids_concat.mp havoids).1)
      exact (hops p).resolve_right fun havoids => (avoids_concat.mp havoids).2 hbereaves

theorem allDocuments_empty {settings : Settings} {scanner : Scanner} {fs : FileSystem} :
    ({ settings, scanner, fs } : Workspace).AllDocuments property := by
  intro p d hd
  have hnone : none = some d := hd
  cases hnone

end Workspace

end ProjectTracker
