import Nginx.Core.Palloc

namespace Nginx.Palloc

open Ranges Hash

-- What lies at the beginning of the block at a place
def header (i : Nat) : Nat := if i = 0 then poolSize else dataSize

structure Block.Sound (psize i : Nat) (b : Block) : Prop where
  endp : b.endp = b.addr + psize
  addr : 8 ∣ b.addr
  header : b.addr + Palloc.header i ≤ b.last
  last : b.last ≤ b.endp

-- The range lies in a block behind its header, and in front of last if the block is still used.
def Pool.Places (pool : Pool) (r : Range) : Prop :=
  ∃ i b, pool.blocks[i]? = some b ∧ b.addr + header i ≤ r.addr ∧ r.stop ≤ if pool.current ≤ i then b.last else b.endp

def owned (psize : Nat) (pool : Pool) : List Range :=
  (pool.blocks.map fun b => ⟨b.addr, psize⟩) ++ pool.large.filterMap Large.alloc

-- The pool holds its blocks and its large blocks, and extra beside them; items lie in its blocks.
structure Arena (psize : Nat) (pool : Pool) (sys : Sys) (extra items : List Range) : Prop where
  psize_dvd : 8 ∣ psize
  psize_ge : minPoolSize ≤ psize
  psize_lt : psize < 2 ^ 64
  max_ge : 32 ≤ pool.max
  max_le : pool.max + poolSize ≤ psize
  current : pool.current < pool.blocks.length
  sound : ∀ (i : Nat) (b : Block), pool.blocks[i]? = some b → b.Sound psize i
  held : ∀ r, r ∈ sys.held ↔ r ∈ extra ++ owned psize pool
  apart : AllApart (extra ++ owned psize pool)
  pos : ∀ r ∈ extra ++ owned psize pool, 0 < r.size
  placed : ∀ r ∈ items, pool.Places r
  items : AllApart items
  badFree : sys.badFree = false

variable {psize size : Nat} {pool pool' : Pool} {sys sys' : Sys} {extra items : List Range} {b : Block} {i m : Nat}
  {r : Range} {aligned : Bool}

theorem memalign_eq {boundary a : Nat} (h : memalign boundary size sys = some (a, sys')) :
    a % boundary = 0 ∧ (∀ r ∈ sys.held, (rangeAt a size).Apart r) ∧ sys'.held = rangeAt a size :: sys.held ∧
      sys'.badFree = sys.badFree := by
  unfold memalign at h
  split at h
  · cases h
  · split at h
    · rename_i hanswer
      cases h
      exact ⟨hanswer.2.1, hanswer.2.2, rfl, rfl⟩
    · cases h

theorem Arena.memalign (h : Arena psize pool sys extra items) {boundary a : Nat}
    (hmem : memalign boundary size sys = some (a, sys')) :
    Arena psize pool sys' (rangeAt a size :: extra) items := by
  obtain ⟨-, hapart, hheld, hbad⟩ := memalign_eq hmem
  refine { h with held := fun r => ?_, apart := ?_, pos := ?_, badFree := by rw [hbad, h.badFree] }
  · rw [hheld, List.mem_cons, h.held, List.cons_append, List.mem_cons]
  · rw [List.cons_append, allApart_cons]
    exact ⟨fun r hr => hapart r ((h.held r).mpr hr), h.apart⟩
  · intro r hr
    rw [List.cons_append, List.mem_cons] at hr
    rcases hr with rfl | hr
    · exact Nat.lt_of_lt_of_le Nat.one_pos (Nat.le_max_right _ _)
    · exact h.pos r hr

theorem Arena.mono {items' : List Range} (h : Arena psize pool sys extra items) (hsub : ∀ r ∈ items', r ∈ items)
    (hitems : AllApart items') : Arena psize pool sys extra items' :=
  { h with placed := fun r hr => h.placed r (hsub r hr), items := hitems }

-- Blocks do not meet.
theorem Arena.blocks_apart (h : Arena psize pool sys extra items) {j : Nat} {c : Block}
    (hb : pool.blocks[i]? = some b) (hc : pool.blocks[j]? = some c) (hij : i ≠ j) :
    Range.Apart ⟨b.addr, psize⟩ ⟨c.addr, psize⟩ := by
  have hblocks : AllApart (pool.blocks.map fun b => ⟨b.addr, psize⟩) :=
    (allApart_append.mp (allApart_append.mp h.apart).2.1).1
  obtain ⟨hi, rfl⟩ := List.getElem?_eq_some_iff.mp hb
  obtain ⟨hj, rfl⟩ := List.getElem?_eq_some_iff.mp hc
  have hpairs := List.pairwise_iff_getElem.mp (List.pairwise_map.mp hblocks)
  rcases Nat.lt_or_gt_of_ne hij with hlt | hlt
  · exact hpairs i j hi hj hlt
  · exact (hpairs j i hj hi hlt).symm

theorem Block.Sound.within (hs : b.Sound psize i) {current : Nat} (haddr : b.addr + Palloc.header i ≤ r.addr)
    (hstop : r.stop ≤ if current ≤ i then b.last else b.endp) : r.Within ⟨b.addr, psize⟩ := by
  have hendp := hs.endp
  have hlast := hs.last
  refine ⟨by show b.addr ≤ r.addr; omega, ?_⟩
  show r.stop ≤ b.addr + psize
  split at hstop <;> omega

-- A block may grow, and current may go on.
structure Grows (pool pool' : Pool) : Prop where
  current : pool.current ≤ pool'.current
  blocks : ∀ (i : Nat) (b : Block), pool.blocks[i]? = some b →
    ∃ b' : Block, pool'.blocks[i]? = some b' ∧ b'.addr = b.addr ∧ b'.endp = b.endp ∧ b.last ≤ b'.last

theorem Pool.Places.grows (hplaced : pool.Places r) (hgrows : Grows pool pool')
    (hsound : ∀ (i : Nat) (b : Block), pool.blocks[i]? = some b → b.Sound psize i) : pool'.Places r := by
  obtain ⟨i, b, hb, haddr, hstop⟩ := hplaced
  obtain ⟨b', hb', heq, hendp, hlast⟩ := hgrows.blocks i b hb
  have hle := (hsound i b hb).last
  have hcurrent := hgrows.current
  refine ⟨i, b', hb', by omega, ?_⟩
  split
  · rw [if_pos (by omega)] at hstop
    omega
  · split at hstop <;> omega

theorem map_set_same {α β : Type} (f : α → β) (l : List α) (i : Nat) (a a' : α) (hl : l[i]? = some a)
    (hf : f a' = f a) : (l.set i a').map f = l.map f := by
  rw [List.map_set, hf]
  refine List.ext_getElem? fun j => ?_
  rw [List.getElem?_set]
  split
  · rename_i hij
    subst hij
    obtain ⟨hlt, -⟩ := List.getElem?_eq_some_iff.mp hl
    rw [if_pos (by simpa using hlt), List.getElem?_map, hl, Option.map_some]
  · rfl

-- A new item at the end of a block that is still used
theorem Arena.extend (h : Arena psize pool sys extra items) (hb : pool.blocks[i]? = some b) (hi : pool.current ≤ i)
    (hm : b.last ≤ m) (hend : m + size ≤ b.endp) :
    Arena psize { pool with blocks := pool.blocks.set i { b with last := m + size } } sys extra (⟨m, size⟩ :: items) := by
  have hs := h.sound i b hb
  obtain ⟨hlt, -⟩ := List.getElem?_eq_some_iff.mp hb
  have hget : ∀ j c, (pool.blocks.set i { b with last := m + size })[j]? = some c →
      (i = j ∧ c = { b with last := m + size }) ∨ (i ≠ j ∧ pool.blocks[j]? = some c) := by
    intro j c hc
    rw [List.getElem?_set] at hc
    split at hc
    · rename_i hij
      rw [Option.some.injEq] at hc
      exact Or.inl ⟨hij, hc.symm⟩
    · rename_i hij
      exact Or.inr ⟨hij, hc⟩
  have hself : (pool.blocks.set i { b with last := m + size })[i]? = some { b with last := m + size } := by
    rw [List.getElem?_set, if_pos rfl, if_pos hlt]
  have hgrows : Grows pool { pool with blocks := pool.blocks.set i { b with last := m + size } } := by
    refine ⟨Nat.le_refl _, fun j c hc => ?_⟩
    by_cases hij : i = j
    · subst hij
      rw [hb, Option.some.injEq] at hc
      subst hc
      exact ⟨_, hself, rfl, rfl, by show b.last ≤ m + size; omega⟩
    · refine ⟨c, ?_, rfl, rfl, Nat.le_refl _⟩
      show (pool.blocks.set i { b with last := m + size })[j]? = some c
      rw [List.getElem?_set, if_neg hij, hc]
  have howned : owned psize { pool with blocks := pool.blocks.set i { b with last := m + size } } = owned psize pool := by
    unfold owned
    dsimp only
    rw [map_set_same (fun b : Block => (⟨b.addr, psize⟩ : Range)) pool.blocks i b { b with last := m + size } hb rfl]
  refine { h with current := ?_, sound := ?_, held := ?_, apart := ?_, pos := ?_, placed := ?_, items := ?_ }
  · show pool.current < (pool.blocks.set i _).length
    rw [List.length_set]
    exact h.current
  · intro j c hc
    rcases hget j c hc with ⟨rfl, rfl⟩ | ⟨-, hc⟩
    · have hheader := hs.header
      exact ⟨hs.endp, hs.addr, by show b.addr + header i ≤ m + size; omega, hend⟩
    · exact h.sound j c hc
  · rw [howned]
    exact h.held
  · rw [howned]
    exact h.apart
  · rw [howned]
    exact h.pos
  · intro r hr
    rcases List.mem_cons.mp hr with rfl | hr
    · have hheader := hs.header
      refine ⟨i, _, hself, by show b.addr + header i ≤ m; omega, ?_⟩
      rw [if_pos hi]
      exact Nat.le_refl _
    · exact (h.placed r hr).grows hgrows h.sound
  · rw [allApart_cons]
    refine ⟨fun r hr => ?_, h.items⟩
    obtain ⟨j, c, hc, haddr, hstop⟩ := h.placed r hr
    by_cases hij : i = j
    · subst hij
      rw [hb, Option.some.injEq] at hc
      subst hc
      rw [if_pos hi] at hstop
      exact Or.inr (by show r.stop ≤ m; omega)
    · have hheader := hs.header
      have hendp := hs.endp
      have hnew : Range.Within ⟨m, size⟩ ⟨b.addr, psize⟩ :=
        ⟨by show b.addr ≤ m; omega, by show m + size ≤ b.addr + psize; omega⟩
      exact (h.blocks_apart hb hc hij).within hnew ((h.sound j c hc).within haddr hstop)

def start (aligned : Bool) (b : Block) : Nat := if aligned then align b.last alignment else b.last

theorem findSpace_some {blocks blocks' : List Block} (h : findSpace aligned size blocks = some (m, blocks')) :
    ∃ j b, blocks[j]? = some b ∧ m = start aligned b ∧ size ≤ toSize (b.endp - m) ∧
      blocks' = blocks.set j { b with last := m + size } := by
  induction blocks generalizing blocks' with
  | nil => cases h
  | cons p blocks ih =>
      have heq : findSpace aligned size (p :: blocks) =
          if size ≤ toSize (p.endp - start aligned p) then
            some (start aligned p, { p with last := start aligned p + size } :: blocks)
          else (findSpace aligned size blocks).map fun r => (r.1, p :: r.2) := by
        rw [findSpace]
        cases findSpace aligned size blocks <;> rfl
      rw [heq] at h
      split at h
      · rename_i hle
        cases h
        exact ⟨0, p, rfl, rfl, hle, rfl⟩
      · obtain ⟨⟨m', blocks₁⟩, hrest, hfound⟩ := Option.map_eq_some_iff.mp h
        · cases hfound
          obtain ⟨j, b, hb, hm, hle, heq⟩ := ih hrest
          exact ⟨j + 1, b, hb, hm, hle, by rw [heq, List.set_cons_succ]⟩

theorem take_set_drop (blocks : List Block) (current j : Nat) (hcurrent : current ≤ blocks.length) (b : Block) :
    blocks.take current ++ (blocks.drop current).set j b = blocks.set (current + j) b := by
  have hlen : (blocks.take current).length = current := List.length_take_of_le hcurrent
  have hset : ((blocks.take current) ++ (blocks.drop current)).set (current + j) b =
      blocks.take current ++ (blocks.drop current).set j b := by
    rw [List.set_append_right _ _ (by omega), hlen, Nat.add_sub_cancel_left]
  rw [← hset, List.take_append_drop]

-- Aligning does not lead behind the end of a block.
theorem start_bounds (hs : b.Sound psize i) (hpsize : 8 ∣ psize) (aligned : Bool) :
    b.last ≤ start aligned b ∧ start aligned b ≤ b.endp ∧ (aligned = true → 8 ∣ start aligned b) := by
  have hle := le_align b.last alignment (by decide)
  have hlt := align_lt b.last alignment (by decide)
  have hdvd := dvd_align b.last alignment
  have hlast := hs.last
  have hend : 8 ∣ b.endp := by
    rw [hs.endp]
    exact Nat.dvd_add hs.addr hpsize
  have halign : alignment = 8 := rfl
  unfold start
  split
  · rw [halign] at hle hlt hdvd ⊢
    exact ⟨hle, by omega, fun _ => hdvd⟩
  · rename_i hnot
    exact ⟨Nat.le_refl _, hlast, fun htrue => absurd htrue hnot⟩

theorem Arena.findSpace {blocks : List Block} (h : Arena psize pool sys extra items)
    (hfind : findSpace aligned size (pool.blocks.drop pool.current) = some (m, blocks)) :
    Arena psize { pool with blocks := pool.blocks.take pool.current ++ blocks } sys extra (⟨m, size⟩ :: items) ∧
      (aligned = true → 8 ∣ m) := by
  obtain ⟨j, b, hb, rfl, hsize, rfl⟩ := findSpace_some hfind
  rw [List.getElem?_drop] at hb
  have hs := h.sound _ b hb
  obtain ⟨hle, hend, hdvd⟩ := start_bounds hs h.psize_dvd aligned
  have hspace : (toSize (b.endp - start aligned b) : Int) = b.endp - start aligned b := by
    have hendp := hs.endp
    have hheader := hs.header
    have hlt := h.psize_lt
    exact toSize_of_nonneg _ (by omega) (by omega)
  rw [take_set_drop _ _ _ (Nat.le_of_lt h.current)]
  exact ⟨h.extend hb (Nat.le_add_right _ _) hle (by omega), hdvd⟩

-- What the counts of failures leave alone
def Block.core (b : Block) : Nat × Nat × Nat := (b.addr, b.last, b.endp)

theorem countFailed_spec (blocks : List Block) (i current : Nat) (hne : blocks ≠ []) (hcurrent : current ≤ i) :
    (countFailed blocks i current).1.map Block.core = blocks.map Block.core ∧
      current ≤ (countFailed blocks i current).2 ∧ (countFailed blocks i current).2 < i + blocks.length := by
  induction blocks generalizing i current with
  | nil => exact absurd rfl hne
  | cons p blocks ih =>
      cases blocks with
      | nil => exact ⟨rfl, Nat.le_refl _, by rw [countFailed]; simp; omega⟩
      | cons next blocks =>
          obtain ⟨hcore, hle, hlt⟩ := ih (i + 1) (if p.failed > 4 then i + 1 else current) (by simp)
            (by split <;> omega)
          rw [countFailed]
          refine ⟨by simp only [List.map_cons] at hcore ⊢; rw [hcore]; rfl, ?_, ?_⟩
          · refine Nat.le_trans ?_ hle
            split <;> omega
          · rw [List.length_cons] at hlt ⊢
            simp only [List.length_cons] at hlt ⊢
            omega

theorem core_getElem {blocks blocks' : List Block} (hcore : blocks'.map Block.core = blocks.map Block.core)
    {i : Nat} {b : Block} (hb : blocks[i]? = some b) :
    ∃ b', blocks'[i]? = some b' ∧ b'.addr = b.addr ∧ b'.last = b.last ∧ b'.endp = b.endp := by
  have hget := congrArg (fun l => l[i]?) hcore
  simp only [List.getElem?_map, hb, Option.map_some, Option.map_eq_some_iff] at hget
  obtain ⟨b', hb', heq⟩ := hget
  simp only [Block.core, Prod.mk.injEq] at heq
  exact ⟨b', hb', heq.1, heq.2.1, heq.2.2⟩

-- A new block, in what was held beside the pool, with its first item
theorem Arena.addBlock {new current : Nat} {blocks : List Block}
    (h : Arena psize pool sys (⟨new, psize⟩ :: extra) items) (hnew : 8 ∣ new)
    (hcore : blocks.map Block.core = pool.blocks.map Block.core) (hle : pool.current ≤ current)
    (hlt : current < pool.blocks.length) (hsize : size ≤ pool.max) :
    Arena psize { pool with blocks := blocks ++ [⟨new, new + dataSize + size, new + psize, 0⟩], current := current } sys
      extra (⟨new + dataSize, size⟩ :: items) := by
  have hlen : blocks.length = pool.blocks.length := by
    have heq := congrArg List.length hcore
    rwa [List.length_map, List.length_map] at heq
  have hmax := h.max_le
  have hpool : poolSize = 80 := rfl
  have hdata : dataSize = 32 := rfl
  have hheader : header pool.blocks.length = 32 := by
    have hcur := h.current
    unfold header
    rw [if_neg (by omega)]
    rfl
  have hlast : (blocks ++ [(⟨new, new + dataSize + size, new + psize, 0⟩ : Block)])[pool.blocks.length]? =
      some ⟨new, new + dataSize + size, new + psize, 0⟩ := by
    rw [← hlen, List.getElem?_append_right (Nat.le_refl _), Nat.sub_self]
    rfl
  have hgrows : Grows pool { pool with blocks := blocks ++ [⟨new, new + dataSize + size, new + psize, 0⟩], current := current } := by
    refine ⟨hle, fun i b hb => ?_⟩
    obtain ⟨b', hb', haddr, hlast, hendp⟩ := core_getElem hcore hb
    obtain ⟨hi, -⟩ := List.getElem?_eq_some_iff.mp hb'
    exact ⟨b', by rw [List.getElem?_append_left hi, hb'], haddr, hendp, by rw [hlast]⟩
  have howned : owned psize { pool with blocks := blocks ++ [⟨new, new + dataSize + size, new + psize, 0⟩], current := current } =
      (pool.blocks.map fun b => ⟨b.addr, psize⟩) ++ (⟨new, psize⟩ :: pool.large.filterMap Large.alloc) := by
    have haddr : (blocks.map fun b => (⟨b.addr, psize⟩ : Range)) = pool.blocks.map fun b => ⟨b.addr, psize⟩ := by
      have hmap := congrArg (List.map fun c : Nat × Nat × Nat => (⟨c.1, psize⟩ : Range)) hcore
      simpa only [List.map_map, Function.comp_def, Block.core] using hmap
    unfold owned
    dsimp only
    rw [List.map_append, haddr, List.append_assoc]
    rfl
  have hperm : ((⟨new, psize⟩ :: extra) ++ owned psize pool).Perm
      (extra ++ ((pool.blocks.map fun b => ⟨b.addr, psize⟩) ++ (⟨new, psize⟩ :: pool.large.filterMap Large.alloc))) := by
    unfold owned
    rw [List.cons_append]
    rw [← List.append_assoc, ← List.append_assoc]
    exact List.perm_middle.symm
  refine { h with current := ?_, sound := ?_, held := ?_, apart := ?_, pos := ?_, placed := ?_, items := ?_ }
  · show current < (blocks ++ [_]).length
    rw [List.length_append, hlen]
    exact Nat.lt_add_right 1 hlt
  · intro i b hb
    by_cases hi : i < blocks.length
    · rw [List.getElem?_append_left hi] at hb
      obtain ⟨b', hb', haddr, hlast, hendp⟩ := core_getElem hcore.symm hb
      have hs := h.sound i b' hb'
      exact ⟨by rw [← hendp, ← haddr]; exact hs.endp, by rw [← haddr]; exact hs.addr,
        by rw [← hlast, ← haddr]; exact hs.header, by rw [← hlast, ← hendp]; exact hs.last⟩
    · rw [List.getElem?_append_right (by omega)] at hb
      have hi' : i = pool.blocks.length := by
        obtain ⟨hlt', -⟩ := List.getElem?_eq_some_iff.mp hb
        simp only [List.length_cons, List.length_nil] at hlt'
        omega
      rw [hi', hlen, Nat.sub_self] at hb
      cases hb
      rw [hi']
      refine ⟨rfl, hnew, ?_, ?_⟩
      · rw [hheader]
        show new + 32 ≤ new + dataSize + size
        omega
      · show new + dataSize + size ≤ new + psize
        omega
  · intro r
    rw [howned, ← hperm.mem_iff]
    exact h.held r
  · rw [howned]
    exact h.apart.perm hperm
  · intro r hr
    rw [howned, ← hperm.mem_iff] at hr
    exact h.pos r hr
  · intro r hr
    rcases List.mem_cons.mp hr with rfl | hr
    · refine ⟨pool.blocks.length, _, hlast, ?_, ?_⟩
      · rw [hheader]
        exact Nat.le_refl _
      · rw [if_pos (Nat.le_of_lt hlt)]
        exact Nat.le_refl _
    · exact (h.placed r hr).grows hgrows h.sound
  · rw [allApart_cons]
    refine ⟨fun r hr => ?_, h.items⟩
    obtain ⟨j, c, hc, haddr, hstop⟩ := h.placed r hr
    have hwithin := (h.sound j c hc).within haddr hstop
    have hapart := (allApart_cons.mp h.apart).1 ⟨c.addr, psize⟩ (by
      refine List.mem_append_right _ (List.mem_append_left _ (List.mem_map.mpr ⟨c, ?_, rfl⟩))
      exact List.mem_of_getElem? hc)
    refine hapart.within ⟨?_, ?_⟩ hwithin
    · show new ≤ new + dataSize
      omega
    · show new + dataSize + size ≤ new + psize
      omega

end Nginx.Palloc
