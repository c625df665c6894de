import Nginx.Http.FileCache

-- The nodes of a cache against the parties that hold them and the size that is kept of their files.
namespace Nginx.FileCache

open Interleaving (tally tally_update tally_const le_tally)

def Place.node : Place → Option Ptr
  | .held c => some c.node
  | .marking c => some c.node
  | .deleting p _ => some p
  | _ => none

-- Whether a party holds the node, and whether it is the one that removes its file.
def holds (p : Ptr) (l : Place) : ℕ := if l.node = some p then 1 else 0

def removal (p : Ptr) : Place → ℕ
  | .deleting q _ => if q = p then 1 else 0
  | _ => 0

-- What sh->size holds of a node: delete takes it off before it unlocks.
def charge (n : Node) : Int := if n.deleting then 0 else n.fsSize

variable {P : Type} [Fintype P] [DecidableEq P]

-- Under the assumption that the sizes are followed, they add up.
structure Sound (followed : Prop) (sh : Shared) (place : P → Place) : Prop where
  nodup : sh.queue.Nodup
  queue : ∀ p, p ∈ sh.queue ↔ p ∈ sh.tree
  slab : sh.slab = sh.tree
  held : ∀ i p, (place i).node = some p → p ∈ sh.tree
  count : ∀ p ∈ sh.tree, (sh.node p).count = tally (holds p) place
  small : ∀ p ∈ sh.tree, (sh.node p).count < 2 ^ 20
  deleting : ∀ p ∈ sh.tree, tally (removal p) place = (sh.node p).deleting.toNat
  absent : ∀ p ∈ sh.tree, (sh.node p).existsFlag = false → (sh.node p).fsSize = 0
  size : followed → sh.size = ∑ p ∈ sh.tree, charge (sh.node p)

variable {followed : Prop} {sh : Shared} {place : P → Place} {i : P} {l : Place} {p q : Ptr}

theorem holds_le (p : Ptr) (l : Place) : holds p l ≤ 1 := by
  unfold holds
  split <;> omega

theorem holds_pos_iff : 0 < holds p l ↔ l.node = some p := by
  unfold holds
  split
  · exact ⟨fun _ => ‹_›, fun _ => Nat.zero_lt_one⟩
  · exact ⟨fun h => absurd h (Nat.lt_irrefl 0), fun h => absurd h ‹_›⟩

theorem removal_le_holds (p : Ptr) (l : Place) : removal p l ≤ holds p l := by
  unfold removal holds
  split
  · simp only [Place.node, Option.some.injEq, Nat.le_refl]
  · exact Nat.zero_le _

theorem sum_set {s : Finset Ptr} {f : Ptr → Node} (hp : p ∈ s) (n : Node) (w : Node → Int) :
    ∑ q ∈ s, w (Function.update f p n q) = ∑ q ∈ s, w (f q) + (w n - w (f p)) := by
  have hnew := Finset.add_sum_erase s (fun q => w (Function.update f p n q)) hp
  have hold := Finset.add_sum_erase s (fun q => w (f q)) hp
  have hsame : ∑ q ∈ s.erase p, w (Function.update f p n q) = ∑ q ∈ s.erase p, w (f q) := by
    apply Finset.sum_congr rfl
    intro q hq
    rw [Function.update_of_ne (Finset.ne_of_mem_erase hq)]
  simp only [Function.update_self] at hnew
  omega

theorem sum_set_outside {s : Finset Ptr} {f : Ptr → Node} (hp : p ∉ s) (n : Node) (w : Node → Int) :
    ∑ q ∈ s, w (Function.update f p n q) = ∑ q ∈ s, w (f q) := by
  apply Finset.sum_congr rfl
  intro q hq
  rw [Function.update_of_ne (ne_of_mem_of_not_mem hq hp)]

-- A party goes to a place that is about the same nodes, but for one.
structure Moves (i : P) (place : P → Place) (l : Place) (p : Ptr) : Prop where
  holds : ∀ q ≠ p, holds q l = holds q (place i)
  removal : ∀ q ≠ p, removal q l = removal q (place i)

theorem Moves.tally_holds (h : Moves i place l p) (hq : q ≠ p) :
    tally (FileCache.holds q) (Function.update place i l) = tally (FileCache.holds q) place := by
  have hupdate := tally_update (FileCache.holds q) place i l
  have hsame := h.holds q hq
  omega

theorem Moves.tally_removal (h : Moves i place l p) (hq : q ≠ p) :
    tally (FileCache.removal q) (Function.update place i l) = tally (FileCache.removal q) place := by
  have hupdate := tally_update (FileCache.removal q) place i l
  have hsame := h.removal q hq
  omega

-- The other nodes that the parties hold are those they held.
omit [Fintype P] in
theorem Moves.node_eq (h : Moves i place l p) {j : P} (hj : (Function.update place i l j).node = some q) (hq : q ≠ p) :
    (place j).node = some q := by
  by_cases hji : j = i
  · subst hji
    rw [Function.update_self] at hj
    rw [← holds_pos_iff, ← h.holds q hq, holds_pos_iff]
    exact hj
  · rwa [Function.update_of_ne hji] at hj

-- One node changes, and one party.
theorem Sound.change (h : Sound followed sh place) (hmoves : Moves i place l p) (hp : p ∈ sh.tree) {n : Node} {queue : List Ptr}
    {size : Int} {cold : Bool} (hqueue : queue.Perm sh.queue)
    (hcount : n.count + holds p (place i) = (sh.node p).count + holds p l) (hsmall : n.count < 2 ^ 20)
    (hdeleting : n.deleting.toNat + removal p (place i) = (sh.node p).deleting.toNat + removal p l)
    (habsent : n.existsFlag = false → n.fsSize = 0) (hsize : followed → size = sh.size + (charge n - charge (sh.node p))) :
    Sound followed ⟨Function.update sh.node p n, sh.tree, queue, sh.slab, size, cold⟩ (Function.update place i l) := by
  refine ⟨hqueue.nodup_iff.mpr h.nodup, fun q => hqueue.mem_iff.trans (h.queue q), h.slab, fun j q hj => ?_,
    fun q hq => ?_, fun q hq => ?_, fun q hq => ?_, fun q hq => ?_, ?_⟩
  · by_cases hqp : q = p
    · exact hqp ▸ hp
    · exact h.held j q (hmoves.node_eq hj hqp)
  · by_cases hqp : q = p
    · subst hqp
      have hupdate := tally_update (holds q) place i l
      have hold := h.count q hq
      simp only [Function.update_self]
      omega
    · simp only [Function.update_of_ne hqp]
      rw [hmoves.tally_holds hqp]
      exact h.count q hq
  · by_cases hqp : q = p
    · subst hqp
      simpa only [Function.update_self] using hsmall
    · simpa only [Function.update_of_ne hqp] using h.small q hq
  · by_cases hqp : q = p
    · subst hqp
      have hupdate := tally_update (removal q) place i l
      have hold := h.deleting q hq
      simp only [Function.update_self]
      omega
    · simp only [Function.update_of_ne hqp]
      rw [hmoves.tally_removal hqp]
      exact h.deleting q hq
  · by_cases hqp : q = p
    · subst hqp
      simpa only [Function.update_self] using habsent
    · simpa only [Function.update_of_ne hqp] using h.absent q hq
  · intro hf
    rw [sum_set hp n charge, hsize hf, h.size hf]

-- The node that nobody holds any longer leaves the tree, the queue and the slab at once.
theorem Sound.remove (h : Sound followed sh place) (hmoves : Moves i place l p) (hp : p ∈ sh.tree) (n : Node)
    (hnone : tally (holds p) (Function.update place i l) = 0) (hcharge : followed → charge (sh.node p) = 0) :
    Sound followed ((sh.set p n).remove p) (Function.update place i l) := by
  have hmem : ∀ q ∈ sh.tree.erase p, q ∈ sh.tree ∧ q ≠ p := fun q hq =>
    ⟨Finset.mem_of_mem_erase hq, Finset.ne_of_mem_erase hq⟩
  have hnode : ∀ q ∈ sh.tree.erase p, ((sh.set p n).remove p).node q = sh.node q := fun q hq =>
    Function.update_of_ne (hmem q hq).2 _ _
  refine ⟨h.nodup.erase p, fun q => ?_, ?_, fun j q hj => ?_, fun q hq => ?_, fun q hq => ?_, fun q hq => ?_,
    fun q hq => ?_, ?_⟩
  · show q ∈ sh.queue.erase p ↔ q ∈ sh.tree.erase p
    rw [h.nodup.mem_erase_iff, Finset.mem_erase, h.queue q]
  · show sh.slab.erase p = sh.tree.erase p
    rw [h.slab]
  · have hqp : q ≠ p := by
      rintro rfl
      have hle := le_tally (holds q) (Function.update place i l) j
      have hpos := holds_pos_iff.mpr hj
      omega
    exact Finset.mem_erase.mpr ⟨hqp, h.held j q (hmoves.node_eq hj hqp)⟩
  · rw [hnode q hq, hmoves.tally_holds (hmem q hq).2]
    exact h.count q (hmem q hq).1
  · rw [hnode q hq]
    exact h.small q (hmem q hq).1
  · rw [hnode q hq, hmoves.tally_removal (hmem q hq).2]
    exact h.deleting q (hmem q hq).1
  · rw [hnode q hq]
    exact h.absent q (hmem q hq).1
  · intro hf
    show sh.size = ∑ q ∈ sh.tree.erase p, charge (((sh.set p n).remove p).node q)
    rw [Finset.sum_congr rfl fun q hq => by rw [hnode q hq], h.size hf]
    have hsum := Finset.add_sum_erase sh.tree (fun q => charge (sh.node q)) hp
    have hzero := hcharge hf
    omega

-- A chunk of the slab becomes a node.
theorem Sound.insert (h : Sound followed sh place) (hmoves : Moves i place l p) (hp : p ∉ sh.tree) {n : Node} {size : Int}
    {cold : Bool} (hcount : n.count = holds p l) (hdeleting : n.deleting = false) (hremoval : removal p l = 0)
    (habsent : n.existsFlag = false → n.fsSize = 0) (hsize : size = sh.size + n.fsSize) :
    Sound followed ⟨Function.update sh.node p n, Insert.insert p sh.tree, p :: sh.queue, Insert.insert p sh.slab, size, cold⟩
      (Function.update place i l) := by
  have hnobody : ∀ j, holds p (place j) = 0 := by
    intro j
    by_contra hne
    exact hp (h.held j p (holds_pos_iff.mp (Nat.pos_of_ne_zero hne)))
  have hremoves : ∀ j, removal p (place j) = 0 := fun j =>
    Nat.eq_zero_of_le_zero ((removal_le_holds p (place j)).trans (Nat.le_of_eq (hnobody j)))
  have hne : ∀ q ∈ sh.tree, q ≠ p := fun q hq => ne_of_mem_of_not_mem hq hp
  refine ⟨?_, fun q => ?_, ?_, fun j q hj => ?_, fun q hq => ?_, fun q hq => ?_, fun q hq => ?_, fun q hq => ?_, ?_⟩
  · exact List.nodup_cons.mpr ⟨fun hq => hp ((h.queue p).mp hq), h.nodup⟩
  · simp only [List.mem_cons, Finset.mem_insert, h.queue q]
  · simp only [h.slab]
  · by_cases hqp : q = p
    · exact hqp ▸ Finset.mem_insert_self _ _
    · exact Finset.mem_insert_of_mem (h.held j q (hmoves.node_eq hj hqp))
  · obtain rfl | hq := Finset.mem_insert.mp hq
    · have hupdate := tally_update (holds q) place i l
      have hzero := tally_const (holds q) place hnobody
      have hi := hnobody i
      simp only [Function.update_self]
      omega
    · simp only [Function.update_of_ne (hne q hq)]
      rw [hmoves.tally_holds (hne q hq)]
      exact h.count q hq
  · obtain rfl | hq := Finset.mem_insert.mp hq
    · have hle := holds_le q l
      simp only [Function.update_self]
      omega
    · simpa only [Function.update_of_ne (hne q hq)] using h.small q hq
  · obtain rfl | hq := Finset.mem_insert.mp hq
    · have hupdate := tally_update (removal q) place i l
      have hzero := tally_const (removal q) place hremoves
      have hi := hremoves i
      simp only [Function.update_self, hdeleting, Bool.toNat_false]
      omega
    · simp only [Function.update_of_ne (hne q hq)]
      rw [hmoves.tally_removal (hne q hq)]
      exact h.deleting q hq
  · obtain rfl | hq := Finset.mem_insert.mp hq
    · simpa only [Function.update_self] using habsent
    · simpa only [Function.update_of_ne (hne q hq)] using h.absent q hq
  · intro hf
    have hcharge : charge n = n.fsSize := by rw [charge, hdeleting]; rfl
    show size = ∑ q ∈ Insert.insert p sh.tree, charge (Function.update sh.node p n q)
    rw [Finset.sum_insert hp, sum_set_outside hp n charge, Function.update_self, hcharge, hsize, h.size hf]
    omega

end Nginx.FileCache
