import ProjectTracker.Proofs.LineTree.Arithmetic
import ProjectTracker.Proofs.LineTree.Slicing

/-!
Reading a range of the text in machine words and bytes. The functions of this module do what a tree does to gather a
range, but leave nothing to numbers without a bound: only the end of the range is a sum that stops at the largest
word, every other sum has to fit into one, no difference may fall below zero, and the part of a line is cut out
between two offsets of its UTF-8 form. None of this ever fails for a text whose length fits into a word.
-/

namespace ProjectTracker

namespace Text

/-! ### Cutting by bytes -/

/-- The bytes of a text from offset `first` to before `last`, if these lie in it and in this order. -/
def cutBytes? (text : Text) (first last : Nat) : Option (List UInt8) :=
  if first ≤ last ∧ last ≤ text.toUtf8.length then some ((text.toUtf8.take last).drop first) else none

@[simp] theorem toUtf8_append (xs ys : Text) : toUtf8 (xs ++ ys) = toUtf8 xs ++ toUtf8 ys :=
  List.flatMap_append

theorem length_toUtf8_take (text : Text) (n : Nat) : (toUtf8 (text.take n)).length = text.byteOffset n := by
  rw [byteOffset]
  generalize text.take n = part
  induction part with
  | nil => rfl
  | cons c part ih =>
      rw [List.foldr_cons, ← ih, toUtf8, toUtf8, List.flatMap_cons, List.length_append,
        String.length_utf8EncodeChar]

theorem toUtf8_take (text : Text) (n : Nat) : toUtf8 (text.take n) = text.toUtf8.take (text.byteOffset n) := by
  conv_rhs => rw [← List.take_append_drop n text, toUtf8_append, List.take_append_drop]
  rw [← length_toUtf8_take, List.take_left]

theorem toUtf8_drop (text : Text) (n : Nat) : toUtf8 (text.drop n) = text.toUtf8.drop (text.byteOffset n) := by
  conv_rhs => rw [← List.take_append_drop n text, toUtf8_append, List.take_append_drop]
  rw [← length_toUtf8_take, List.drop_left]

/-- Cutting between the byte offsets of two characters is cutting between the characters. -/
theorem cutBytes?_byteOffset (text : Text) {first last : Nat} (h : first ≤ last) :
    text.cutBytes? (text.byteOffset first) (text.byteOffset last) =
      some (toUtf8 ((text.take last).drop first)) := by
  have hfirst : byteOffset (text.take last) first = text.byteOffset first := by
    rw [byteOffset, byteOffset, List.take_take, Nat.min_eq_left h]
  have hordered : text.byteOffset first ≤ text.byteOffset last := by
    rw [← length_toUtf8_take, ← length_toUtf8_take, ← Nat.min_eq_left h, ← List.take_take, toUtf8_take]
    exact List.length_take_le' ..
  have hinside : text.byteOffset last ≤ text.toUtf8.length := by
    rw [← length_toUtf8_take, toUtf8_take]
    exact List.length_take_le' ..
  rw [cutBytes?, if_pos ⟨hordered, hinside⟩, toUtf8_drop, hfirst, toUtf8_take]

end Text

namespace LineTree

/-! ### Sums of words -/

/-- The sum of two words, or the largest word if no word holds it. -/
def addSaturating (m n : UInt64) : UInt64 :=
  if m ≤ m + n then m + n else .ofNat (UInt64.size - 1)

/-- The sum of two numbers, if a word holds it. -/
def addWord? (m n : Nat) : Option Nat :=
  if m + n < UInt64.size then some (m + n) else none

/-- A sum that wraps around is smaller than what was added to. -/
theorem toNat_addSaturating (m n : UInt64) :
    (addSaturating m n).toNat = min (m.toNat + n.toNat) (UInt64.size - 1) := by
  have hm := m.toNat_lt
  have hn := n.toNat_lt
  rw [addSaturating]
  split
  · rename_i hle
    rw [UInt64.le_iff_toNat_le, UInt64.toNat_add] at hle
    rw [UInt64.toNat_add, UInt64.size]
    omega
  · rename_i hlt
    rw [UInt64.le_iff_toNat_le, UInt64.toNat_add] at hlt
    rw [UInt64.toNat_ofNat', UInt64.size]
    omega

theorem toNat_add_of_fits {m n : UInt64} (h : m.toNat + n.toNat < UInt64.size) :
    (m + n).toNat = m.toNat + n.toNat := by
  rw [UInt64.toNat_add]
  exact Nat.mod_eq_of_lt h

namespace Node

/-! ### Gathering a range -/

mutual

/-- The bytes of the characters from `start` to before `stop`, below a node that starts at offset `base`. -/
def gather? (start stop : Nat) : Node → Nat → Option (List UInt8)
  | leaf text chars, base => do
    let upto ← stop.psub base
    text.cutBytes? (text.byteOffset (start - base)) (text.byteOffset (min upto chars))
  | branch children _ _, base => gatherAll? start stop children base

/-- The same below a run of nodes. -/
def gatherAll? (start stop : Nat) : List Node → Nat → Option (List UInt8)
  | [], _ => some []
  | node :: nodes, base => do
    let next ← addWord? base node.chars
    let here := if start < next ∧ base < stop then node.gather? start stop base else some []
    if stop ≤ next then here
    else do
      let first ← here
      let rest ← gatherAll? start stop nodes next
      some (first ++ rest)

end

section

variable {capacity depth start stop base : Nat} {node : Node} {nodes : List Node}

/-- Where the nodes of a run give the bytes of what they hold of a range, so does the run, if it ends at an offset
that a word holds. -/
theorem gatherAll?_eq (h : ∀ node ∈ nodes, ∀ base, start < base + node.chars → base < stop →
      base + node.chars < UInt64.size →
      node.gather? start stop base = (node.collect? start stop base).map Text.toUtf8)
    (hfits : base + total chars nodes < UInt64.size) :
    gatherAll? start stop nodes base = (collectAll? start stop nodes base).map Text.toUtf8 := by
  induction nodes generalizing base with
  | nil => rfl
  | cons node nodes ih =>
      have htotal : total chars (node :: nodes) = node.chars + total chars nodes := rfl
      have hnext : addWord? base node.chars = some (base + node.chars) := if_pos (by omega)
      have hhere : (if start < base + node.chars ∧ base < stop then node.gather? start stop base else some []) =
          (if start < base + node.chars ∧ base < stop then node.collect? start stop base
            else some []).map Text.toUtf8 := by
        split
        · rename_i hin
          exact h node List.mem_cons_self base hin.1 hin.2 (by omega)
        · rfl
      have hrest := ih (fun node hnode => h node (List.mem_cons_of_mem _ hnode))
        (show base + node.chars + total chars nodes < UInt64.size by omega)
      rw [gatherAll?, collectAll?, hnext]
      dsimp only [Option.bind_eq_bind, Option.bind_some]
      rw [hhere, hrest]
      generalize (if start < base + node.chars ∧ base < stop then node.collect? start stop base
        else some []) = here
      cases here with
      | none => split <;> rfl
      | some first =>
          split
          · rfl
          · cases collectAll? start stop nodes (base + node.chars) with
            | none => rfl
            | some rest => exact congrArg some (Text.toUtf8_append first rest).symm

/-- A leaf is entered only if the range has a part in it, so that the part does not end before it starts. -/
theorem Balanced.gather?_eq (h : node.Balanced capacity depth) (hstart : start < base + node.chars)
    (hstop : base < stop) (hordered : start ≤ stop) (hfits : base + node.chars < UInt64.size) :
    node.gather? start stop base = (node.collect? start stop base).map Text.toUtf8 := by
  induction h generalizing base with
  | @leaf text =>
      rw [chars] at hstart
      rw [gather?, collect?, Nat.psub_eq_sub (Nat.le_of_lt hstop)]
      exact text.cutBytes?_byteOffset (by omega)
  | branch _ _ _ ih =>
      exact gatherAll?_eq (fun node hnode base hstart hstop hfits => ih node hnode hstart hstop hfits) hfits

end

end Node

/-- The bytes of the part of the text that starts at `start` and has `count` characters. -/
def getBytes? (t : LineTree) (start count : UInt64) : Option (List UInt8) :=
  if count = 0 ∨ t.length ≤ start.toNat then some []
  else t.root.gather? start.toNat (min (addSaturating start count).toNat t.length) 0

variable {t : LineTree}

/-- Where the end of a range is cut off at the largest word, the text has ended before. -/
theorem Balanced.getBytes?_eq (h : t.Balanced) (hfits : t.length < UInt64.size) (start count : UInt64) :
    t.getBytes? start count = some (t.getText start.toNat count.toNat).toUtf8 := by
  have hcount : count = 0 ↔ count.toNat = 0 := UInt64.toNat_inj.symm
  have hstop : min (addSaturating start count).toNat t.length = min (start.toNat + count.toNat) t.length := by
    rw [toNat_addSaturating]
    omega
  rw [getBytes?, getText, hstop]
  by_cases hnothing : count.toNat = 0 ∨ t.length ≤ start.toNat
  · rw [if_pos hnothing, if_pos (by rwa [hcount])]
    rfl
  · rw [if_neg hnothing, if_neg (by rwa [hcount])]
    rcases h.root with hroot | ⟨depth, hroot, -⟩
    · exact absurd (.inr (by rw [LineTree.length, hroot]; exact Nat.zero_le _)) hnothing
    · have hlength : t.root.chars = t.length := rfl
      rw [hroot.gather?_eq (by omega) (by omega) (by omega) (by omega), hroot.collect?_eq (Nat.zero_le _)]
      rfl

/-- Whatever a tree is loaded from and however it is edited, a range of it is the slice of its text, and a range and the
one after it make up the range of both. Where words count the text this holds in words and bytes: a range may reach
past the largest word, and none fails. -/
theorem getText_editAll_load (origin : Origin) (changes : List Change) :
    let t := origin.load.editAll changes
    (∀ start count, t.getText start count = (t.text.drop start).take count) ∧
    (∀ start first second,
      t.getText start first ++ t.getText (start + first) second = t.getText start (first + second)) ∧
    (t.length < UInt64.size →
      (∀ start count : UInt64,
        t.getBytes? start count = some (Text.toUtf8 ((t.text.drop start.toNat).take count.toNat))) ∧
      ∀ start first second : UInt64, start.toNat + first.toNat < UInt64.size →
        first.toNat + second.toNat < UInt64.size →
        ∃ before after, t.getBytes? start first = some before ∧
          t.getBytes? (start + first) second = some after ∧
          t.getBytes? start (first + second) = some (before ++ after)) := by
  intro t
  have hbalanced : t.Balanced := origin.balanced_load.editAll changes
  have hslice : ∀ start count, t.getText start count = (t.text.drop start).take count := hbalanced.getText_eq
  have hjoin (start first second : Nat) :
      t.getText start first ++ t.getText (start + first) second = t.getText start (first + second) := by
    rw [hslice, hslice, hslice, List.take_add, List.drop_drop]
  refine ⟨hslice, hjoin, fun hfits => ⟨fun start count => ?_, fun start first second hstart hcount => ?_⟩⟩
  · rw [hbalanced.getBytes?_eq hfits, hslice]
  · refine ⟨_, _, hbalanced.getBytes?_eq hfits start first, hbalanced.getBytes?_eq hfits _ second, ?_⟩
    rw [hbalanced.getBytes?_eq hfits, ← Text.toUtf8_append, toNat_add_of_fits hstart,
      toNat_add_of_fits hcount, hjoin]

/-- A range of an edited text that no word holds the end of. -/
theorem getText_editAll_load_past_words :
    let t := (Origin.text ['a', 'b', '\n', 'c'] 2).load.editAll [⟨1, 1, ['é', '\n']⟩]
    t.length < UInt64.size ∧
      t.getBytes? 1 (.ofNat (UInt64.size - 1)) = some [0xc3, 0xa9, 0x0a, 0x0a, 0x63] := by
  intro t
  have hfits : t.length < UInt64.size := by decide
  refine ⟨hfits, ?_⟩
  rw [((getText_editAll_load (.text ['a', 'b', '\n', 'c'] 2) [⟨1, 1, ['é', '\n']⟩]).2.2 hfits).1]
  decide

end LineTree

end ProjectTracker
