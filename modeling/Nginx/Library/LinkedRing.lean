import Mathlib

-- Circular lists with links in both directions, which begin and end at a sentinel.
namespace LinkedRing

variable {ι : Type}

structure Links (ι : Type) where
  next : ι → ι
  prev : ι → ι

-- The link from a to b and back
def Linked (H : Links ι) (a b : ι) : Prop := H.next a = b ∧ H.prev b = a

-- The elements l, in this order, stand in the ring of s.
structure Ring (H : Links ι) (s : ι) (l : List ι) : Prop where
  chain : List.IsChain (Linked H) (s :: l ++ [s])
  nodup : (s :: l).Nodup

variable {H H' : Links ι} {s : ι} {l a b A B : List ι} {p q n : ι}

-- A part of the ring lives on the links that go out of it and the ones that come into it.
theorem chain_congr (hnext : ∀ z ∈ l.dropLast, H'.next z = H.next z) (hprev : ∀ z ∈ l.tail, H'.prev z = H.prev z)
    (h : List.IsChain (Linked H) l) : List.IsChain (Linked H') l := by
  induction l with
  | nil => exact .nil
  | cons x l ih =>
      cases l with
      | nil => exact .singleton x
      | cons y l =>
          rw [List.isChain_cons_cons] at h ⊢
          have hx : x ∈ (x :: y :: l).dropLast := by simp
          have hy : y ∈ (x :: y :: l).tail := List.mem_cons_self
          refine ⟨⟨(hnext x hx).trans h.1.1, (hprev y hy).trans h.1.2⟩, ih ?_ ?_ h.2⟩
          · exact fun z hz => hnext z (by rw [List.dropLast_cons_cons]; exact List.mem_cons_of_mem _ hz)
          · exact fun z hz => hprev z (List.mem_cons_of_mem _ hz)

-- What stands before an element and what stands behind it
theorem last_before (s : ι) (a : List ι) : ∃ A p, s :: a = A ++ [p] :=
  ⟨_, _, (List.dropLast_append_getLast (List.cons_ne_nil s a)).symm⟩

theorem first_behind (s : ι) (b : List ι) : ∃ n B, b ++ [s] = n :: B := by
  cases b with
  | nil => exact ⟨s, [], rfl⟩
  | cons x b => exact ⟨x, b ++ [s], rfl⟩

theorem Ring.split (h : Ring H s (a ++ b)) (hp : s :: a = A ++ [p]) (hn : b ++ [s] = n :: B) :
    List.IsChain (Linked H) (A ++ [p]) ∧ Linked H p n ∧ List.IsChain (Linked H) (n :: B) := by
  have hlist : s :: (a ++ b) ++ [s] = A ++ p :: n :: B := by
    rw [← List.cons_append, hp, List.append_assoc, List.append_assoc, hn]
    rfl
  exact List.isChain_append_cons_cons.mp (hlist ▸ h.chain)

theorem Ring.neighbours (h : Ring H s (a ++ q :: b)) (hp : s :: a = A ++ [p]) (hn : b ++ [s] = n :: B) :
    Linked H p q ∧ Linked H q n := by
  obtain ⟨-, hpq, hrest⟩ := h.split (B := n :: B) hp (congrArg (q :: ·) hn)
  exact ⟨hpq, (List.isChain_cons_cons.mp hrest).1⟩

-- The places where the parts before and behind p and n are linked are other places.
theorem Ring.parts (hnodup : (s :: (a ++ b)).Nodup) (hp : s :: a = A ++ [p]) (hn : b ++ [s] = n :: B) :
    p ∉ A ∧ p ∉ b ∧ n ∉ a ∧ n ∉ B := by
  have hfront : (A ++ [p]).Nodup := by
    rw [← hp]
    exact hnodup.sublist (List.Sublist.cons_cons s (List.sublist_append_left a b))
  have hback : (n :: B).Nodup := by
    rw [← hn, List.nodup_append_comm]
    exact hnodup.sublist (List.Sublist.cons_cons s (List.sublist_append_right a b))
  have hpmem : p ∈ s :: a := by rw [hp]; simp
  have hnmem : n ∈ b ++ [s] := by rw [hn]; simp
  have hdisjoint : ∀ x ∈ s :: a, ∀ y ∈ b, x ≠ y := by
    rw [← List.cons_append] at hnodup
    exact (List.nodup_append.mp hnodup).2.2
  refine ⟨?_, fun hb => hdisjoint p hpmem p hb rfl, fun ha => ?_, (List.nodup_cons.mp hback).1⟩
  · exact fun hA => (List.nodup_append.mp hfront).2.2 p hA p (List.mem_singleton_self p) rfl
  · rcases List.mem_append.mp hnmem with hb | hs
    · exact hdisjoint n (List.mem_cons_of_mem _ ha) n hb rfl
    · rw [List.mem_singleton.mp hs] at ha
      exact (List.nodup_cons.mp hnodup).1 (List.mem_append_left _ ha)

-- The links of the parts stay when only the link from p and the one to n change.
theorem parts_keep (H' : Links ι) (hfront : List.IsChain (Linked H) (A ++ [p])) (hback : List.IsChain (Linked H) (n :: B))
    (hp : s :: a = A ++ [p]) (hn : b ++ [s] = n :: B) (hnext : ∀ z ∈ A ++ b, H'.next z = H.next z)
    (hprev : ∀ z ∈ a ++ B, H'.prev z = H.prev z) :
    List.IsChain (Linked H') (A ++ [p]) ∧ List.IsChain (Linked H') (n :: B) := by
  constructor
  · apply chain_congr _ _ hfront
    · intro z hz
      rw [List.dropLast_concat] at hz
      exact hnext z (List.mem_append_left _ hz)
    · intro z hz
      rw [← hp] at hz
      exact hprev z (List.mem_append_left _ hz)
  · apply chain_congr _ _ hback
    · intro z hz
      rw [← hn, List.dropLast_concat] at hz
      exact hnext z (List.mem_append_right _ hz)
    · exact fun z hz => hprev z (List.mem_append_right _ hz)

theorem Ring.join (hfront : List.IsChain (Linked H) (A ++ [p])) (hlink : Linked H p n)
    (hback : List.IsChain (Linked H) (n :: B)) (hp : s :: a = A ++ [p]) (hn : b ++ [s] = n :: B)
    (hnodup : (s :: (a ++ b)).Nodup) : Ring H s (a ++ b) := by
  have hlist : s :: (a ++ b) ++ [s] = A ++ p :: n :: B := by
    rw [← List.cons_append, hp, List.append_assoc, List.append_assoc, hn]
    rfl
  exact ⟨hlist ▸ List.isChain_append_cons_cons.mpr ⟨hfront, hlink, hback⟩, hnodup⟩

section Updates

variable [DecidableEq ι]

-- An element leaves when its neighbours are linked.
theorem Ring.unlink (h : Ring H s (a ++ q :: b)) (hp : s :: a = A ++ [p]) (hn : b ++ [s] = n :: B)
    (hnext : H'.next = Function.update H.next p n) (hprev : H'.prev = Function.update H.prev n p) :
    Ring H' s (a ++ b) := by
  obtain ⟨hfront, -, hrest⟩ := h.split (B := n :: B) hp (congrArg (q :: ·) hn)
  have hback := (List.isChain_cons_cons.mp hrest).2
  have hnodup : (s :: (a ++ b)).Nodup :=
    h.nodup.sublist (List.Sublist.cons_cons s ((List.sublist_cons_self q b).append_left a))
  obtain ⟨hpA, hpb, hna, hnB⟩ := Ring.parts hnodup hp hn
  obtain ⟨hfront', hback'⟩ := parts_keep H' hfront hback hp hn
    (by
      intro z hz
      rw [hnext]
      apply Function.update_of_ne
      rintro rfl
      exact (List.mem_append.mp hz).elim hpA hpb)
    (by
      intro z hz
      rw [hprev]
      apply Function.update_of_ne
      rintro rfl
      exact (List.mem_append.mp hz).elim hna hnB)
  have hlink : Linked H' p n := by
    rw [Linked, hnext, hprev, Function.update_self, Function.update_self]
    exact ⟨rfl, rfl⟩
  exact Ring.join hfront' hlink hback' hp hn hnodup

-- A new element enters between two neighbours.
theorem Ring.link (h : Ring H s (a ++ b)) (hq : q ∉ s :: (a ++ b)) (hp : s :: a = A ++ [p]) (hn : b ++ [s] = n :: B)
    (hnext : H'.next = Function.update (Function.update H.next q n) p q)
    (hprev : H'.prev = Function.update (Function.update H.prev n q) q p) : Ring H' s (a ++ q :: b) := by
  obtain ⟨hfront, -, hback⟩ := h.split hp hn
  obtain ⟨hpA, hpb, hna, hnB⟩ := Ring.parts h.nodup hp hn
  have hmem : ∀ z, z ∈ s :: a ∨ z ∈ b ++ [s] → z ≠ q := by
    rintro z hz rfl
    apply hq
    simp only [List.mem_cons, List.mem_append, List.not_mem_nil, or_false] at hz ⊢
    tauto
  have hpq : p ≠ q := hmem p (Or.inl (by rw [hp]; simp))
  have hnq : n ≠ q := hmem n (Or.inr (by rw [hn]; simp))
  obtain ⟨hfront', hback'⟩ := parts_keep H' hfront hback hp hn
    (by
      intro z hz
      have hzp : z ≠ p := by
        rintro rfl
        exact (List.mem_append.mp hz).elim hpA hpb
      have hzq : z ≠ q := by
        rcases List.mem_append.mp hz with hz | hz
        · exact hmem z (Or.inl (by rw [hp]; exact List.mem_append_left _ hz))
        · exact hmem z (Or.inr (List.mem_append_left _ hz))
      rw [hnext, Function.update_of_ne hzp, Function.update_of_ne hzq])
    (by
      intro z hz
      have hzn : z ≠ n := by
        rintro rfl
        exact (List.mem_append.mp hz).elim hna hnB
      have hzq : z ≠ q := by
        rcases List.mem_append.mp hz with hz | hz
        · exact hmem z (Or.inl (List.mem_cons_of_mem _ hz))
        · exact hmem z (Or.inr (by rw [hn]; exact List.mem_cons_of_mem _ hz))
      rw [hprev, Function.update_of_ne hzq, Function.update_of_ne hzn])
  have hleft : Linked H' p q := by
    rw [Linked, hnext, hprev, Function.update_self, Function.update_self]
    exact ⟨rfl, rfl⟩
  have hright : Linked H' q n := by
    rw [Linked, hnext, hprev, Function.update_of_ne hpq.symm, Function.update_self, Function.update_of_ne hnq,
      Function.update_self]
    exact ⟨rfl, rfl⟩
  have hnodup : (s :: (a ++ q :: b)).Nodup := by
    have hperm : (s :: (a ++ q :: b)).Perm (q :: s :: (a ++ b)) :=
      (List.perm_middle.cons s).trans (List.Perm.swap q s (a ++ b))
    exact hperm.nodup_iff.mpr (List.nodup_cons.mpr ⟨hq, h.nodup⟩)
  exact Ring.join hfront' hleft (List.isChain_cons_cons.mpr ⟨hright, hback'⟩) hp (congrArg (q :: ·) hn) hnodup

end Updates

end LinkedRing
