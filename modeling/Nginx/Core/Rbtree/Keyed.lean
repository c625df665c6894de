import Nginx.Core.Memcmp
import Nginx.Core.Rbtree.Delete
import Nginx.Core.Rbtree.Insert
import Nginx.Core.Rbtree.Rotate

namespace Nginx.Rbtree

open LinkedTree Linked

-- Trees that are ordered by a hash and, where it is the same, by ngx_memn2cmp on the keys.
section Comparison

variable (key len : Ptr → Nat) (data : Ptr → Bytes)

-- The comparison of an insert callback.
def keyedLess (node temp : Ptr) : Bool :=
  if key node < key temp then true
  else if key temp < key node then false
  else memn2cmp (data node) (data temp) (len node) (len temp) < 0

-- The comparison of a lookup.
def keyedOrder (hash : Nat) (d : Bytes) (node : Ptr) : Ordering :=
  if hash < key node then .lt
  else if key node < hash then .gt
  else
    let rc := memn2cmp d (data node) d.length (len node)
    if rc = 0 then .eq else if rc < 0 then .lt else .gt

end Comparison

-- Where a key belongs in the tree.
def keyedPlace (hash : Nat) (d : Bytes) : ℕ ×ₗ List ℕ := toLex (hash, rank d)

theorem keyedPlace_lt_iff {h h' : Nat} {d d' : Bytes} :
    keyedPlace h d < keyedPlace h' d' ↔ h < h' ∨ h = h' ∧ rank d < rank d' := Prod.Lex.toLex_lt_toLex

theorem keyedPlace_eq_iff {h h' : Nat} {d d' : Bytes} :
    keyedPlace h d = keyedPlace h' d' ↔ h = h' ∧ d = d' := by
  rw [← rank_injective d, keyedPlace, keyedPlace, toLex.injective.eq_iff, Prod.mk.injEq]

variable {key len : Ptr → Nat} {data : Ptr → Bytes} {p q : Ptr}

theorem keyedLess_eq (hp : len p = (data p).length) (hq : len q = (data q).length) :
    keyedLess key len data p q =
      decide (keyedPlace (key p) (data p) < keyedPlace (key q) (data q)) := by
  rw [Bool.eq_iff_iff, decide_eq_true_eq, keyedPlace_lt_iff, ← memn2cmp_neg_iff, keyedLess, hp, hq]
  by_cases h1 : key p < key q
  · simp [h1]
  · by_cases h2 : key q < key p
    · have hne : key p ≠ key q := by omega
      simp [h1, h2, hne]
    · have heq : key p = key q := by omega
      simp [heq]

theorem keyedOrder_eq (hash : Nat) (d : Bytes) (hp : len p = (data p).length) :
    keyedOrder key len data hash d p = cmp (keyedPlace hash d) (keyedPlace (key p) (data p)) := by
  rw [keyedOrder, hp]
  by_cases h1 : hash < key p
  · rw [if_pos h1, (cmp_eq_lt_iff _ _).mpr (keyedPlace_lt_iff.mpr (.inl h1))]
  · rw [if_neg h1]
    by_cases h2 : key p < hash
    · rw [if_pos h2, (cmp_eq_gt_iff _ _).mpr (keyedPlace_lt_iff.mpr (.inl h2))]
    · have hkey : hash = key p := by omega
      rw [if_neg h2]
      have hzero := memn2cmp_eq_zero_iff d (data p)
      have hneg := memn2cmp_neg_iff d (data p)
      by_cases h3 : memn2cmp d (data p) d.length (data p).length = 0
      · rw [if_pos h3, (cmp_eq_eq_iff _ _).mpr (keyedPlace_eq_iff.mpr ⟨hkey, hzero.mp h3⟩)]
      · rw [if_neg h3]
        by_cases h4 : memn2cmp d (data p) d.length (data p).length < 0
        · rw [if_pos h4, (cmp_eq_lt_iff _ _).mpr (keyedPlace_lt_iff.mpr (.inr ⟨hkey, hneg.mp h4⟩))]
        · have hgt : keyedPlace (key p) (data p) < keyedPlace hash d := by
            refine lt_of_le_of_ne (not_lt.mp fun h => ?_) fun h => ?_
            · rcases keyedPlace_lt_iff.mp h with h | h
              · omega
              · exact h4 (hneg.mpr h.2)
            · exact h3 (hzero.mpr (keyedPlace_eq_iff.mp h).2.symm)
          rw [if_neg h4, (cmp_eq_gt_iff _ _).mpr hgt]

-- A tree whose nodes were written for their keys.
structure Keyed (hash : Bytes → Nat) (s : Ptr) (H : Nodes) (key len : Ptr → Nat) (data : Ptr → Bytes)
    (t : Linked Bool) : Prop where
  valid : Valid s H t
  sorted : t.toList.Pairwise fun p q => keyedPlace (key p) (data p) < keyedPlace (key q) (data q)
  key : ∀ p ∈ t.toList, key p = hash (data p)
  len : ∀ p ∈ t.toList, len p = (data p).length

variable {hash : Bytes → Nat} {s : Ptr} {H : Nodes} {key' len' : Ptr → Nat} {data' : Ptr → Bytes}
  {t : Linked Bool}

theorem Keyed.unique (h : Keyed hash s H key len data t) (hp : p ∈ t.toList) (hq : q ∈ t.toList)
    (heq : data p = data q) : p = q := by
  have hne : ∀ {p q}, p ∈ t.toList → q ∈ t.toList →
      keyedPlace (key p) (data p) < keyedPlace (key q) (data q) → data p ≠ data q := by
    intro p q hp hq hlt heq
    rw [h.key p hp, h.key q hq, heq] at hlt
    exact lt_irrefl _ hlt
  have hdiff : t.toList.Pairwise fun p q => data p = data q → p = q :=
    h.sorted.imp_of_mem fun hp hq hlt heq => absurd heq (hne hp hq hlt)
  have hflip : t.toList.Pairwise (flip fun p q => data p = data q → p = q) :=
    h.sorted.imp_of_mem fun hp hq hlt heq => absurd heq.symm (hne hp hq hlt)
  exact List.Pairwise.forall_of_forall_of_flip (fun _ _ _ => rfl) hdiff hflip hp hq heq

-- Only the fields of the nodes in the tree matter.
theorem Keyed.congr (h : Keyed hash s H key len data t) (hkey : ∀ p ∈ t.toList, key' p = key p)
    (hlen : ∀ p ∈ t.toList, len' p = len p) (hdata : ∀ p ∈ t.toList, data' p = data p) :
    Keyed hash s H key' len' data' t := by
  refine ⟨h.valid, h.sorted.imp_of_mem fun hp hq hlt => ?_, fun p hp => ?_, fun p hp => ?_⟩
  · rw [hkey _ hp, hkey _ hq, hdata _ hp, hdata _ hq]
    exact hlt
  · rw [hkey p hp, hdata p hp]
    exact h.key p hp
  · rw [hlen p hp, hdata p hp]
    exact h.len p hp

theorem Keyed.search (h : Keyed hash s H key len data t) (d : Bytes) (fuel : Nat)
    (hfuel : t.toList.length < fuel) :
    ∃ p, Rbtree.search (keyedOrder key len data (hash d) d) s H fuel H.root = some p ∧
      ((p ∈ t.toList ∧ data p = d) ∨ (p = s ∧ ∀ q ∈ t.toList, data q ≠ d)) := by
  have horder : ∀ p ∈ t.toList, keyedOrder key len data (hash d) d p =
      cmp (keyedPlace (hash d) d) (keyedPlace (key p) (data p)) :=
    fun p hp => keyedOrder_eq (hash d) d (h.len p hp)
  have hord : Ordered (keyedOrder key len data (hash d) d) t := by
    refine h.sorted.imp_of_mem fun hp hq hlt => ?_
    rw [horder _ hp, horder _ hq, cmp_eq_lt_iff, cmp_eq_lt_iff, cmp_eq_gt_iff, cmp_eq_gt_iff]
    exact ⟨fun h => h.trans hlt, fun h => hlt.trans h⟩
  have heq : ∀ p ∈ t.toList, keyedOrder key len data (hash d) d p = .eq ↔ data p = d := by
    intro p hp
    rw [horder p hp, cmp_eq_eq_iff, keyedPlace_eq_iff, h.key p hp]
    exact ⟨fun h => h.2.symm, fun h => ⟨by rw [h], h.symm⟩⟩
  obtain ⟨p, hrun, hp⟩ := search_spec (keyedOrder key len data (hash d) d) fuel h.valid hord hfuel
  refine ⟨p, hrun, ?_⟩
  rcases hp with ⟨hmem, ho⟩ | ⟨hs, hnone⟩
  · exact .inl ⟨hmem, (heq p hmem).mp ho⟩
  · exact .inr ⟨hs, fun q hq hdata => hnone q hq ((heq q hq).mpr hdata)⟩

-- The tree with a node of a new key, whose fields are written already.
theorem Keyed.insert (h : Keyed hash s H key len data t) (fuel : Nat) (hnew : p ∉ t.toList) (hs : p ≠ s)
    (h0 : p ≠ 0) (hkey : key p = hash (data p)) (hlen : len p = (data p).length)
    (hfresh : ∀ q ∈ t.toList, data q ≠ data p) (hfuel : t.toList.length < fuel) :
    ∃ H' t', Rbtree.insert (fun fuel s H temp node => insertBy (keyedLess key len data node) fuel s H temp node)
        fuel s H p = some H' ∧
      Keyed hash s H' key len data t' ∧ t'.toList.Perm (p :: t.toList) := by
  have hless : ∀ q ∈ t.toList, keyedLess key len data p q =
      decide (keyedPlace (key p) (data p) < keyedPlace (key q) (data q)) :=
    fun q hq => keyedLess_eq hlen (h.len q hq)
  have hmono : t.toList.Pairwise fun q q' =>
      keyedLess key len data p q = true → keyedLess key len data p q' = true := by
    refine h.sorted.imp_of_mem fun hq hq' hlt hleft => ?_
    rw [hless _ hq, decide_eq_true_eq] at hleft
    rw [hless _ hq', decide_eq_true_eq]
    exact hleft.trans hlt
  obtain ⟨H', t', ls, rs, hrun, hvalid, hlist, hlist', hls, hrs, -⟩ := insert_spec
    (fun fuel s H temp node => insertBy (keyedLess key len data node) fuel s H temp node)
    (keyedLess key len data p) fuel p t rfl h.valid hnew hs h0 hmono hfuel
  have hmeml : ∀ q ∈ ls, q ∈ t.toList := fun q hq => by simp [hlist, hq]
  have hmemr : ∀ q ∈ rs, q ∈ t.toList := fun q hq => by simp [hlist, hq]
  have hbelow : ∀ q ∈ ls, keyedPlace (key q) (data q) < keyedPlace (key p) (data p) := by
    intro q hq
    have hnot := hls q hq
    rw [hless q (hmeml q hq), decide_eq_false_iff_not, not_lt] at hnot
    exact lt_of_le_of_ne hnot fun heq => hfresh q (hmeml q hq) (keyedPlace_eq_iff.mp heq).2
  have habove : ∀ q ∈ rs, keyedPlace (key p) (data p) < keyedPlace (key q) (data q) := by
    intro q hq
    have hleft := hrs q hq
    rwa [hless q (hmemr q hq), decide_eq_true_eq] at hleft
  have hperm : t'.toList.Perm (p :: t.toList) := by
    rw [hlist', hlist]
    exact List.perm_middle
  have hmem : ∀ q ∈ t'.toList, q = p ∨ q ∈ t.toList := fun q hq => List.mem_cons.mp (hperm.mem_iff.mp hq)
  refine ⟨H', t', hrun, ⟨hvalid, ?_, fun q hq => ?_, fun q hq => ?_⟩, hperm⟩
  · have hsorted := h.sorted
    rw [hlist] at hsorted
    obtain ⟨hl, hr, hlr⟩ := List.pairwise_append.mp hsorted
    rw [hlist', List.pairwise_append, List.pairwise_cons]
    refine ⟨hl, ⟨habove, hr⟩, fun q hq q' hq' => ?_⟩
    rcases List.mem_cons.mp hq' with rfl | hq'
    · exact hbelow q hq
    · exact hlr q hq q' hq'
  · rcases hmem q hq with rfl | hq
    · exact hkey
    · exact h.key q hq
  · rcases hmem q hq with rfl | hq
    · exact hlen
    · exact h.len q hq

-- ngx_rbtree_delete clears the key of the node it takes out.
theorem Keyed.delete (h : Keyed hash s H key len data t) (fuel : Nat) (hp : p ∈ t.toList)
    (hkey : ∀ q, q ≠ p → key' q = key q) (hfuel : t.toList.length < fuel) :
    ∃ H' t', Rbtree.delete fuel s H p = some H' ∧ Keyed hash s H' key' len data t' ∧
      t.toList.Perm (p :: t'.toList) ∧ p ∉ t'.toList := by
  obtain ⟨H', t', ls, rs, hrun, hvalid, hlist, hlist', -⟩ := delete_spec fuel h.valid hp hfuel
  have hnodup := h.valid.distinct.nodup
  rw [hlist, List.nodup_middle, List.nodup_cons, ← hlist'] at hnodup
  have hsub : t'.toList.Sublist t.toList := by
    rw [hlist, hlist']
    exact (List.sublist_cons_self p rs).append_left ls
  have hrest : Keyed hash s H' key len data t' :=
    ⟨hvalid, h.sorted.sublist hsub, fun q hq => h.key q (hsub.subset hq),
      fun q hq => h.len q (hsub.subset hq)⟩
  refine ⟨H', t', hrun, hrest.congr (fun q hq => hkey q ?_) (fun _ _ => rfl) (fun _ _ => rfl), ?_, hnodup.1⟩
  · rintro rfl
    exact hnodup.1 hq
  · rw [hlist, hlist']
    exact List.perm_middle

end Nginx.Rbtree
