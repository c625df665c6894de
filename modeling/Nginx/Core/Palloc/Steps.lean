import Nginx.Core.Palloc.Arena

namespace Nginx.Palloc

open Ranges Hash

variable {psize size m : Nat} {pool pool' : Pool} {sys sys' : Sys} {extra items : List Range} {aligned : Bool} {p : Range}

-- What an allocation in the blocks leaves alone
structure Keeps (pool pool' : Pool) : Prop where
  max : pool'.max = pool.max
  chain : pool'.chain = pool.chain
  large : pool'.large = pool.large
  cleanup : pool'.cleanup = pool.cleanup

theorem align_of_dvd {a : Nat} (h : 8 ∣ a) : align (a + dataSize) alignment = a + dataSize := by
  unfold align dataSize alignment
  omega

theorem Arena.pallocBlock (h : Arena psize pool sys extra items) (hsize : size ≤ pool.max)
    (hp : pallocBlock pool size sys = some (m, pool', sys')) :
    Arena psize pool' sys' extra (⟨m, size⟩ :: items) ∧ 8 ∣ m ∧ Keeps pool pool' := by
  simp only [Palloc.pallocBlock, Option.bind_eq_bind, Option.bind_eq_some_iff] at hp
  obtain ⟨first, hfirst, ⟨new, sys₁⟩, hmem, hp⟩ := hp
  have hs := h.sound 0 first (by rw [← List.head?_eq_getElem?]; exact hfirst)
  have hpsize : first.endp - first.addr = psize := by
    rw [hs.endp]
    exact Nat.add_sub_cancel_left _ _
  rw [hpsize] at hmem hp
  have hge : 112 ≤ psize := h.psize_ge
  have hrange : rangeAt new psize = ⟨new, psize⟩ := by
    rw [rangeAt, Nat.max_eq_left (by omega)]
  have hnew : 8 ∣ new := by
    have hmod : new % 16 = 0 := (memalign_eq hmem).1
    omega
  have hheld := h.memalign hmem
  rw [hrange] at hheld
  have hne : pool.blocks.drop pool.current ≠ [] := by
    intro hnil
    have hlen := congrArg List.length hnil
    have hcurrent := h.current
    rw [List.length_drop, List.length_nil] at hlen
    omega
  obtain ⟨hcore, hle, hlt⟩ := countFailed_spec (pool.blocks.drop pool.current) pool.current pool.current hne (Nat.le_refl _)
  have hcurrent := h.current
  rw [List.length_drop] at hlt
  have hall : (pool.blocks.take pool.current ++ (countFailed (pool.blocks.drop pool.current) pool.current pool.current).1).map
      Block.core = pool.blocks.map Block.core := by
    rw [List.map_append, hcore, ← List.map_append, List.take_append_drop]
  have hadd := hheld.addBlock hnew hall hle (by omega) hsize
  dsimp only at hp
  rw [align_of_dvd hnew, ← List.append_assoc] at hp
  cases hp
  refine ⟨hadd, ?_, rfl, rfl, rfl, rfl⟩
  show 8 ∣ new + 32
  omega

theorem Arena.pallocSmall (h : Arena psize pool sys extra items) (hsize : size ≤ pool.max)
    (hp : pallocSmall aligned pool size sys = some (m, pool', sys')) :
    Arena psize pool' sys' extra (⟨m, size⟩ :: items) ∧ (aligned = true → 8 ∣ m) ∧ Keeps pool pool' := by
  rw [Palloc.pallocSmall] at hp
  split at hp
  · rename_i m' blocks hfind
    obtain ⟨harena, hdvd⟩ := h.findSpace hfind
    cases hp
    exact ⟨harena, hdvd, rfl, rfl, rfl, rfl⟩
  · obtain ⟨harena, hdvd, hkeeps⟩ := h.pallocBlock hsize hp
    exact ⟨harena, fun _ => hdvd, hkeeps⟩

-- Another list of large blocks over the same memory
theorem Arena.withLarge {extra' : List Range} {large : List Large} (h : Arena psize pool sys extra items)
    (hperm : (extra ++ pool.large.filterMap Large.alloc).Perm (extra' ++ large.filterMap Large.alloc)) :
    Arena psize { pool with large := large } sys extra' items := by
  have hall : (extra ++ owned psize pool).Perm (extra' ++ owned psize { pool with large := large }) := by
    unfold owned
    have hswap : ∀ a b c : List Range, (a ++ (b ++ c)).Perm (b ++ (a ++ c)) := by
      intro a b c
      rw [← List.append_assoc, ← List.append_assoc]
      exact List.perm_append_comm.append_right c
    exact (hswap _ _ _).trans ((hperm.append_left _).trans (hswap _ _ _))
  exact { h with
    held := fun r => by rw [← hall.mem_iff]; exact h.held r
    apart := h.apart.perm hall
    pos := fun r hr => h.pos r (hall.mem_iff.mpr hr)
    sound := h.sound
    placed := h.placed }

-- Memory beside the pool is freed.
theorem Arena.free (h : Arena psize pool sys (p :: extra) items) : Arena psize pool (free p.addr sys) extra items := by
  have hcons := h.apart
  rw [List.cons_append, allApart_cons] at hcons
  have hmem : p ∈ sys.held := (h.held p).mpr (by simp)
  have hheld : Palloc.free p.addr sys = { sys with held := sys.held.filter fun r => r.addr != p.addr } := by
    rw [Palloc.free, if_pos]
    exact List.any_eq_true.mpr ⟨p, hmem, by simp⟩
  rw [hheld]
  refine { h with held := fun r => ?_, apart := hcons.2, pos := fun r hr => ?_ }
  · rw [List.mem_filter, h.held, List.cons_append, List.mem_cons]
    constructor
    · rintro ⟨rfl | hr, hne⟩
      · simp at hne
      · exact hr
    · intro hr
      have hne := (hcons.1 r hr).addr_ne (h.pos p (by simp)) (h.pos r (List.mem_cons_of_mem p hr))
      exact ⟨Or.inr hr, by simpa using hne.symm⟩
  · exact h.pos r (List.mem_cons_of_mem p hr)

theorem reuseLarge_some {large large' : List Large} {n : Nat} (h : reuseLarge p large n = some large') :
    (p :: large.filterMap Large.alloc).Perm (large'.filterMap Large.alloc) ∧
      large'.map Large.record = large.map Large.record := by
  induction large generalizing n large' with
  | nil => cases h
  | cons l large ih =>
      rw [reuseLarge] at h
      split at h
      · rename_i hnone
        cases h
        simp [hnone]
      · split at h
        · cases h
        · rw [Option.map_eq_some_iff] at h
          obtain ⟨rest, hrest, rfl⟩ := h
          obtain ⟨hperm, hrecord⟩ := ih hrest
          refine ⟨?_, by rw [List.map_cons, List.map_cons, hrecord]⟩
          rw [List.filterMap_cons, List.filterMap_cons]
          split
          · exact hperm
          · rename_i r _
            exact (List.Perm.swap r p _).trans (hperm.cons r)

theorem dropLarge_some {large large' : List Large} {a : Nat} (h : dropLarge a large = some large') :
    ∃ r, r.addr = a ∧ (large.filterMap Large.alloc).Perm (r :: large'.filterMap Large.alloc) ∧
      large'.map Large.record = large.map Large.record := by
  induction large generalizing large' with
  | nil => cases h
  | cons l large ih =>
      rw [dropLarge] at h
      split at h
      · rename_i hany
        rw [Option.any_eq_true] at hany
        obtain ⟨r, hr, haddr⟩ := hany
        cases h
        exact ⟨r, by simpa using haddr, by simp [hr], rfl⟩
      · rw [Option.map_eq_some_iff] at h
        obtain ⟨rest, hrest, rfl⟩ := h
        obtain ⟨r, haddr, hperm, hrecord⟩ := ih hrest
        refine ⟨r, haddr, ?_, by rw [List.map_cons, List.map_cons, hrecord]⟩
        rw [List.filterMap_cons, List.filterMap_cons]
        split
        · exact hperm
        · rename_i s _
          exact (hperm.cons s).trans (List.Perm.swap r s _)

theorem dropLarge_none {large : List Large} {a : Nat} (h : dropLarge a large = none) :
    ∀ r ∈ large.filterMap Large.alloc, r.addr ≠ a := by
  induction large with
  | nil => simp
  | cons l large ih =>
      rw [dropLarge] at h
      split at h
      · cases h
      · rename_i hany
        rw [Option.map_eq_none_iff] at h
        intro r hr
        rw [List.filterMap_cons] at hr
        split at hr
        · exact ih h r hr
        · rename_i s hs
          rcases List.mem_cons.mp hr with rfl | hr
          · intro heq
            exact hany (by simp [hs, heq])
          · exact ih h r hr

-- A record for a large block, out of what was held beside the pool
theorem Arena.linkLarge (h : Arena psize pool sys (p :: extra) items)
    (hp : linkLarge p pool sys = some (m, pool', sys')) :
    m = p.addr ∧ pool'.max = pool.max ∧ pool'.chain = pool.chain ∧ pool'.cleanup = pool.cleanup ∧
      ∃ record, pool'.large = ⟨record, some p⟩ :: pool.large ∧
        Arena psize pool' sys' extra (⟨record, largeSize⟩ :: items) := by
  simp only [Palloc.linkLarge, Option.bind_eq_bind] at hp
  have hmax := h.max_ge
  have hlarge : largeSize = 16 := rfl
  rw [if_pos (by omega), Option.bind_eq_some_iff] at hp
  obtain ⟨⟨record, pool₁, sys₁⟩, hsmall, hp⟩ := hp
  obtain ⟨harena, -, hkeeps⟩ := h.pallocSmall (by omega) hsmall
  cases hp
  refine ⟨rfl, hkeeps.max, hkeeps.chain, hkeeps.cleanup, record, by rw [hkeeps.large], ?_⟩
  refine harena.withLarge ?_
  rw [List.filterMap_cons]
  exact List.perm_middle.symm

theorem Arena.pallocLarge (h : Arena psize pool sys extra items)
    (hp : pallocLarge pool size sys = some (m, pool', sys')) :
    pool'.max = pool.max ∧ pool'.chain = pool.chain ∧ pool'.cleanup = pool.cleanup ∧ 8 ∣ m ∧
      (rangeAt m size :: pool.large.filterMap Large.alloc).Perm (pool'.large.filterMap Large.alloc) ∧
        ∃ records : List Nat, pool'.large.map Large.record = records ++ pool.large.map Large.record ∧
          Arena psize pool' sys' extra ((records.map fun a => ⟨a, largeSize⟩) ++ items) := by
  simp only [Palloc.pallocLarge, Option.bind_eq_bind, Option.bind_eq_some_iff] at hp
  obtain ⟨⟨a, sys₁⟩, hmem, hp⟩ := hp
  have hdvd : 8 ∣ a := Nat.dvd_of_mod_eq_zero (memalign_eq hmem).1
  have hheld := h.memalign hmem
  dsimp only at hp
  split at hp
  · rename_i large hreuse
    obtain ⟨hperm, hrecord⟩ := reuseLarge_some hreuse
    cases hp
    refine ⟨rfl, rfl, rfl, hdvd, hperm, [], hrecord, ?_⟩
    refine hheld.withLarge ?_
    exact (List.perm_middle).symm.trans (hperm.append_left extra)
  · obtain ⟨rfl, hmax, hchain, hcleanup, record, hlarge, harena⟩ := hheld.linkLarge hp
    refine ⟨hmax, hchain, hcleanup, hdvd, ?_, [record], by rw [hlarge]; rfl, harena⟩
    rw [hlarge, List.filterMap_cons]

end Nginx.Palloc
