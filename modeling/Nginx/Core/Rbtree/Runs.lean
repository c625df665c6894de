import Nginx.Core.Rbtree.Delete
import Nginx.Core.Rbtree.Insert

namespace Nginx.Rbtree

open LinkedTree

structure Store where
  nodes : Nodes
  key : Ptr → Nat

-- ngx_rbtree_init
def init (s : Ptr) (σ : Store) : Store := { σ with nodes := (σ.nodes.setLabel s false).setRoot s }

-- The caller of an insert brings the node with its key and whatever its other fields hold.
inductive Op where
  | insert (node : Ptr) (key : Nat) (left right parent : Ptr) (red : Bool)
  | delete (node : Ptr)

def Store.write (σ : Store) (node : Ptr) (key : Nat) (left right parent : Ptr) (red : Bool) : Store where
  nodes := (((σ.nodes.setChild .left node left).setChild .right node right).setParent node parent).setLabel
    node red
  key := fun p => if p = node then key else σ.key p

def step (fuel : Nat) (s : Ptr) (σ : Store) : Op → Option Store
  | .insert node key left right parent red => do
      let σ := σ.write node key left right parent red
      let H ← insert (insertValue σ.key) fuel s σ.nodes node
      return { σ with nodes := H }
  | .delete node => do
      let H ← delete fuel s σ.nodes node
      return { nodes := H, key := fun p => if p = node then 0 else σ.key p }

def run (fuel : Nat) (s : Ptr) : Store → List Op → Option Store
  | σ, [] => some σ
  | σ, op :: ops => do
      let σ ← step fuel s σ op
      run fuel s σ ops

-- The inserted nodes without the deleted ones.
def live : List Ptr → List Op → List Ptr
  | nodes, [] => nodes
  | nodes, .insert node _ _ _ _ _ :: ops => live (node :: nodes) ops
  | nodes, .delete node :: ops => live (nodes.filter (· ≠ node)) ops

-- A node is inserted while it is not in the tree and deleted while it is.
def Allowed (s : Ptr) : List Ptr → List Op → Prop
  | _, [] => True
  | nodes, .insert node _ _ _ _ _ :: ops =>
      (node ≠ 0 ∧ node ≠ s ∧ node ∉ nodes) ∧ Allowed s (node :: nodes) ops
  | nodes, .delete node :: ops => node ∈ nodes ∧ Allowed s (nodes.filter (· ≠ node)) ops

open Linked

-- The store holds a red-black tree of the given nodes, in the order of their keys.
structure Sound (s : Ptr) (σ : Store) (nodes : List Ptr) (t : Linked Bool) : Prop where
  valid : Valid s σ.nodes t
  sorted : t.toList.Pairwise fun p q => σ.key p ≤ σ.key q
  reach : ∀ p, Reach σ.nodes s p ↔ p ∈ nodes
  length : t.toList.length ≤ nodes.length

variable {s : Ptr} {σ : Store} {nodes : List Ptr} {t : Linked Bool}

theorem Sound.mem_iff (h : Sound s σ nodes t) (p : Ptr) : p ∈ t.toList ↔ p ∈ nodes := by
  rw [← reach_iff h.valid.focus h.valid.distinct, h.reach]

theorem init_sound (hs : s ≠ 0) (σ : Store) : Sound s (init s σ) [] nil := by
  have hfocus : Focus (init s σ).nodes s [] (nil : Linked Bool) := ⟨rfl, trivial, fun _ => trivial⟩
  have hdist : Distinct s (nil : Linked Bool) := ⟨by simp, by simp, by simp⟩
  refine ⟨⟨hfocus, hdist, ⟨rfl, trivial, 0, rfl⟩, by simp [init], hs⟩, by simp, fun p => ?_, by simp⟩
  rw [reach_iff hfocus hdist]
  simp

-- Memory outside of the tree belongs to its owner.
theorem write_valid (node : Ptr) (key : Nat) (left right parent : Ptr) (red : Bool)
    (h : Valid s σ.nodes t) (hne : node ≠ s) (hnew : node ∉ t.toList) :
    Valid s (σ.write node key left right parent red).nodes t := by
  have hfrozen : Frozen σ.nodes (σ.write node key left right parent red).nodes [node] :=
    (((Frozen.refl.setChild (by simp) _ _).setChild (by simp) _ _).setParent (by simp) _).setLabel (by simp) _
  have hagree : Agree σ.nodes (σ.write node key left right parent red).nodes t.toList :=
    hfrozen.agree fun q hq => by simpa using fun heq : q = node => hnew (heq ▸ hq)
  have hfocus : Focus (σ.write node key left right parent red).nodes s [] t :=
    Agree.focus hagree rfl h.focus
  refine ⟨hfocus, h.distinct, h.redBlack, ?_, h.not_null⟩
  rw [(hfrozen s (by simpa using hne.symm)).1]
  exact h.sentinel

theorem insert_sound (fuel : Nat) (node : Ptr) (key : Nat) (left right parent : Ptr) (red : Bool)
    (h : Sound s σ nodes t) (hnode : node ≠ 0 ∧ node ≠ s ∧ node ∉ nodes) (hfuel : nodes.length < fuel) :
    ∃ σ' t', step fuel s σ (.insert node key left right parent red) = some σ' ∧
      Sound s σ' (node :: nodes) t' := by
  obtain ⟨hnull, hsent, hnew⟩ := hnode
  rw [← h.mem_iff] at hnew
  let σ₁ := σ.write node key left right parent red
  have hvalid : Valid s σ₁.nodes t := write_valid node key left right parent red h.valid hsent hnew
  have hkey : ∀ p ∈ t.toList, σ₁.key p = σ.key p := by
    intro p hp
    have hne : p ≠ node := fun heq => hnew (heq ▸ hp)
    simp [σ₁, Store.write, hne]
  have hsorted : t.toList.Pairwise fun p q => σ₁.key p ≤ σ₁.key q := by
    refine h.sorted.imp_of_mem fun hp hq hle => ?_
    rwa [hkey _ hp, hkey _ hq]
  have hmono : t.toList.Pairwise fun p q =>
      decide (σ₁.key node < σ₁.key p) = true → decide (σ₁.key node < σ₁.key q) = true := by
    refine hsorted.imp fun hle hlt => ?_
    simp only [decide_eq_true_eq] at hlt ⊢
    omega
  have hlen := h.length
  obtain ⟨H', t', ls, rs, hrun, hvalid', hlist, hlist', hls, hrs, -⟩ := insert_spec (insertValue σ₁.key)
    (fun temp => σ₁.key node < σ₁.key temp) fuel node t rfl hvalid hnew hsent hnull hmono (by omega)
  refine ⟨{ σ₁ with nodes := H' }, t', ?_, hvalid', ?_, fun p => ?_, ?_⟩
  · simp only [σ₁] at hrun
    simp [step, hrun, σ₁]
  · rw [hlist] at hsorted
    rw [hlist', List.pairwise_append, List.pairwise_cons]
    obtain ⟨hl, hr, hlr⟩ := List.pairwise_append.mp hsorted
    simp only [decide_eq_false_iff_not, decide_eq_true_eq] at hls hrs
    refine ⟨hl, ⟨fun q hq => Nat.le_of_lt (hrs q hq), hr⟩, fun p hp q hq => ?_⟩
    rcases List.mem_cons.mp hq with rfl | hq
    · exact Nat.le_of_not_lt (hls p hp)
    · exact hlr p hp q hq
  · rw [reach_iff hvalid'.focus hvalid'.distinct, hlist', List.mem_cons, ← h.mem_iff, hlist]
    simp only [List.mem_append, List.mem_cons]
    tauto
  · rw [hlist] at hlen
    simp only [hlist', List.length_append, List.length_cons] at hlen ⊢
    omega

theorem delete_sound (fuel : Nat) (node : Ptr) (h : Sound s σ nodes t) (hnode : node ∈ nodes)
    (hfuel : nodes.length < fuel) :
    ∃ σ' t', step fuel s σ (.delete node) = some σ' ∧ Sound s σ' (nodes.filter (· ≠ node)) t' := by
  have hlen := h.length
  obtain ⟨H', t', ls, rs, hrun, hvalid, hlist, hlist', -⟩ :=
    delete_spec fuel h.valid ((h.mem_iff node).mpr hnode) (by omega)
  have hnodup := h.valid.distinct.nodup
  rw [hlist, List.nodup_middle, List.nodup_cons] at hnodup
  have hmem : ∀ p, p ∈ t'.toList ↔ p ∈ nodes ∧ p ≠ node := by
    intro p
    rw [← h.mem_iff, hlist, hlist']
    simp only [List.mem_append, List.mem_cons]
    have hne : p ∈ ls ∨ p ∈ rs → p ≠ node := by
      rintro hp rfl
      exact hnodup.1 (List.mem_append.mpr hp)
    tauto
  have hsub : t'.toList ⊆ nodes.filter (· ≠ node) := by
    intro p hp
    simpa using (hmem p).mp hp
  refine ⟨_, t', by simp [step, hrun]; rfl, hvalid, ?_, fun p => ?_, ?_⟩
  · have hsorted : t'.toList.Pairwise fun p q => σ.key p ≤ σ.key q := by
      refine h.sorted.sublist ?_
      rw [hlist, hlist']
      exact (List.sublist_cons_self node rs).append_left ls
    refine hsorted.imp_of_mem fun hp hq hle => ?_
    simpa [((hmem _).mp hp).2, ((hmem _).mp hq).2] using hle
  · rw [reach_iff hvalid.focus hvalid.distinct, hmem]
    simp
  · exact (List.subperm_of_subset hvalid.distinct.nodup hsub).length_le

theorem run_sound (fuel : Nat) (ops : List Op) (h : Sound s σ nodes t) (hallowed : Allowed s nodes ops)
    (hfuel : nodes.length + ops.length < fuel) :
    ∃ σ' t', run fuel s σ ops = some σ' ∧ Sound s σ' (live nodes ops) t' := by
  induction ops generalizing σ nodes t with
  | nil => exact ⟨σ, t, rfl, h⟩
  | cons op ops ih =>
      simp only [List.length_cons] at hfuel
      cases op with
      | insert node key left right parent red =>
          obtain ⟨hnode, hrest⟩ := hallowed
          obtain ⟨σ₁, t₁, hstep, h₁⟩ := insert_sound fuel node key left right parent red h hnode (by omega)
          obtain ⟨σ', t', hrun, h'⟩ := ih h₁ hrest (by simp only [List.length_cons]; omega)
          exact ⟨σ', t', by simp [run, hstep, hrun], h'⟩
      | delete node =>
          obtain ⟨hnode, hrest⟩ := hallowed
          obtain ⟨σ₁, t₁, hstep, h₁⟩ := delete_sound fuel node h hnode (by omega)
          have hle := List.length_filter_le (· ≠ node) nodes
          obtain ⟨σ', t', hrun, h'⟩ := ih h₁ hrest (by omega)
          exact ⟨σ', t', by simp [run, hstep, hrun], h'⟩

-- The red-black tree after any number of operations on an initialized tree.
theorem run_init_sound (fuel : Nat) (s : Ptr) (σ : Store) (ops : List Op) (hs : s ≠ 0)
    (hallowed : Allowed s [] ops) (hfuel : ops.length < fuel) :
    ∃ σ' t, run fuel s (init s σ) ops = some σ' ∧ Sound s σ' (live [] ops) t :=
  run_sound fuel ops (init_sound hs σ) hallowed (by simpa using hfuel)

-- Three nodes below the sentinel 1, of which the first is deleted again.
theorem run_init_sound_three :
    ∃ σ' t, run 5 1 (init 1 ⟨⟨fun _ _ => 7, fun _ => 7, fun _ => true, 7⟩, fun _ => 0⟩)
      [.insert 2 10 0 0 0 true, .insert 3 20 2 2 2 false, .insert 4 15 0 3 1 true, .delete 2] = some σ' ∧
      Sound 1 σ' [4, 3] t :=
  run_init_sound 5 1 _ _ (by decide) (by simp [Allowed]) (by decide)

end Nginx.Rbtree
