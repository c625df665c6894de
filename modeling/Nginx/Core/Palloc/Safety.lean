import Nginx.Core.Palloc.Runs

namespace Nginx.Palloc

open Ranges Hash

variable {psize size : Nat} {pool : Pool} {sys sys' : Sys} {s s' : State} {extra items : List Range} {e : Live}

theorem Arena.freeLarge (large : List Large) (h : Arena psize pool sys (large.filterMap Large.alloc ++ extra) items) :
    Arena psize pool (freeLarge large sys) extra items := by
  induction large generalizing sys with
  | nil => exact h
  | cons l large ih =>
      rcases halloc : l.alloc with _ | r
      · rw [List.filterMap_cons_none halloc] at h
        have hsame : Palloc.freeLarge (l :: large) sys = Palloc.freeLarge large sys := by
          simp [Palloc.freeLarge, halloc]
        rw [hsame]
        exact ih h
      · rw [List.filterMap_cons_some halloc, List.cons_append] at h
        have hfree : Palloc.freeLarge (l :: large) sys = Palloc.freeLarge large (Palloc.free r.addr sys) := by
          simp [Palloc.freeLarge, halloc]
        rw [hfree]
        exact ih h.free

-- All large blocks are freed.
theorem Arena.clearLarge (h : Arena psize pool sys [] items) :
    Arena psize { pool with large := [] } (Palloc.freeLarge pool.large sys) [] items := by
  refine Arena.freeLarge pool.large (h.withLarge ?_)
  rw [List.filterMap_nil, List.append_nil, List.append_nil, List.nil_append]

-- The blocks are emptied; what stays lies in blocks that are used no more.
theorem Arena.rewind (h : Arena psize pool sys extra items) (hpos : ∀ r ∈ items, 0 < r.size)
    (hfront : ∀ r ∈ items, ∀ (i : Nat) (b : Block), pool.blocks[i]? = some b → pool.current ≤ i → r.Apart ⟨b.addr, psize⟩) :
    Arena psize { pool with blocks := pool.blocks.map fun b => { b with last := b.addr + poolSize } } sys extra items := by
  have howned : owned psize { pool with blocks := pool.blocks.map fun b => { b with last := b.addr + poolSize } } =
      owned psize pool := by
    simp only [owned, List.map_map, Function.comp_def]
  have hget : ∀ (i : Nat) (b : Block), (pool.blocks.map fun b => { b with last := b.addr + poolSize })[i]? = some b →
      ∃ b', pool.blocks[i]? = some b' ∧ b = { b' with last := b'.addr + poolSize } := by
    intro i b hb
    rw [List.getElem?_map, Option.map_eq_some_iff] at hb
    obtain ⟨b', hb', rfl⟩ := hb
    exact ⟨b', hb', rfl⟩
  refine { h with current := ?_, sound := ?_, held := ?_, apart := ?_, pos := ?_, placed := ?_ }
  · show pool.current < (pool.blocks.map _).length
    rw [List.length_map]
    exact h.current
  · intro i b hb
    obtain ⟨b', hb', rfl⟩ := hget i b hb
    have hs := h.sound i b' hb'
    have hge : 112 ≤ psize := h.psize_ge
    refine ⟨hs.endp, hs.addr, ?_, ?_⟩
    · show b'.addr + header i ≤ b'.addr + poolSize
      unfold header
      split
      · exact Nat.le_refl _
      · exact Nat.add_le_add_left (by decide) _
    · show b'.addr + poolSize ≤ b'.endp
      rw [hs.endp]
      exact Nat.add_le_add_left (Nat.le_trans (by decide) hge) _
  · rw [howned]
    exact h.held
  · rw [howned]
    exact h.apart
  · rw [howned]
    exact h.pos
  · intro r hr
    obtain ⟨i, b, hb, haddr, hstop⟩ := h.placed r hr
    have hused : ¬ pool.current ≤ i := by
      intro hused
      have hwithin := (h.sound i b hb).within haddr hstop
      have hself : r.Apart r := (hfront r hr i b hb hused).within (Range.Within.refl r) hwithin
      exact hself.addr_ne (hpos r hr) (hpos r hr) rfl
    rw [if_neg hused] at hstop
    refine ⟨i, { b with last := b.addr + poolSize }, ?_, haddr, ?_⟩
    · show (pool.blocks.map _)[i]? = _
      rw [List.getElem?_map, hb]
      rfl
    · rw [if_neg hused]
      exact hstop

-- No cleanup record and no link of the pool's chain lies in a block that is given out again.
def Resettable (s : State) : Prop :=
  ∀ r ∈ cleanupRecords s.pool ++ freeLinks s.pool, ∀ (i : Nat) (b : Block),
    s.pool.blocks[i]? = some b → s.pool.current ≤ i → r.Apart ⟨b.addr, b.endp - b.addr⟩

theorem Inv.reset (h : Inv psize s) (hreset : Resettable s) :
    Inv psize ⟨(resetPool s.pool s.sys).1, (resetPool s.pool s.sys).2, []⟩ := by
  have hpos : ∀ r ∈ cleanupRecords s.pool ++ freeLinks s.pool, 0 < r.size := by
    intro r hr
    rcases List.mem_append.mp hr with hr | hr
    · obtain ⟨c, -, rfl⟩ := List.mem_map.mp hr
      show 0 < cleanupSize
      decide
    · obtain ⟨a, -, rfl⟩ := List.mem_map.mp hr
      show 0 < chainSize
      decide
  have hstay : Arena psize { s.pool with large := [] } (Palloc.freeLarge s.pool.large s.sys) []
      (cleanupRecords s.pool ++ freeLinks s.pool) := by
    refine h.arena.clearLarge.mono (fun r hr => ?_) ?_
    · exact List.mem_append_right _ (List.mem_append_right _ hr)
    · exact (allApart_append.mp (allApart_append.mp h.arena.items).2.1).2.1
  have hrewind := hstay.rewind hpos (by
    intro r hr i b hb hi
    have hs := h.arena.sound i b hb
    have hfront := hreset r hr i b hb hi
    rw [hs.endp, Nat.add_sub_cancel_left] at hfront
    exact hfront)
  exact ⟨hrewind, by simp, by simp [larges], by simp, by simp⟩

theorem step_inv (h : Inv psize s) {op : Op} (hop : op = .reset → Resettable s) (hstep : step s op = some s') :
    Inv psize s' := by
  cases op with
  | palloc size =>
      simp only [step, Option.bind_eq_bind, Option.bind_eq_some_iff] at hstep
      obtain ⟨⟨m, pool, sys⟩, hp, hstep⟩ := hstep
      cases hstep
      exact h.palloc hp
  | pcalloc size =>
      simp only [step, Option.bind_eq_bind, Option.bind_eq_some_iff] at hstep
      obtain ⟨⟨m, pool, sys⟩, hp, hstep⟩ := hstep
      cases hstep
      exact h.palloc hp
  | pnalloc size =>
      simp only [step, Option.bind_eq_bind, Option.bind_eq_some_iff] at hstep
      obtain ⟨⟨m, pool, sys⟩, hp, hstep⟩ := hstep
      cases hstep
      exact h.palloc hp
  | pmemalign size boundary =>
      simp only [step, Option.bind_eq_bind, Option.bind_eq_some_iff] at hstep
      obtain ⟨⟨m, pool, sys⟩, hp, hstep⟩ := hstep
      cases hstep
      exact h.pmemalign hp
  | cleanupAdd size =>
      simp only [step, Option.bind_eq_bind, Option.bind_eq_some_iff] at hstep
      obtain ⟨⟨data, pool, sys⟩, hp, hstep⟩ := hstep
      cases hstep
      exact h.cleanupAdd hp
  | allocChainLink =>
      simp only [step, Option.bind_eq_bind, Option.bind_eq_some_iff] at hstep
      obtain ⟨⟨m, pool, sys⟩, hp, hstep⟩ := hstep
      cases hstep
      exact h.allocChainLink hp
  | freeChain e =>
      simp only [step] at hstep
      split at hstep
      · rename_i hlive
        cases hstep
        exact h.freeChain hlive.1 hlive.2
      · cases hstep
  | pfree e =>
      simp only [step] at hstep
      split at hstep
      · rename_i hlive
        cases hstep
        exact h.pfree hlive.1 hlive.2
      · cases hstep
  | reset =>
      cases hstep
      exact h.reset (hop rfl)

theorem create_inv (hsize : 16 ∣ size) (hmin : minPoolSize ≤ size) (hlt : size < 2 ^ 64) (hheld : sys.held = [])
    (hbad : sys.badFree = false) (hcreate : create size sys = some s) : Inv size s := by
  simp only [create, createPool, Option.bind_eq_bind, Option.bind_eq_some_iff] at hcreate
  obtain ⟨⟨pool, sys₁⟩, ⟨⟨p, sys₂⟩, hmem, hpool⟩, hcreate⟩ := hcreate
  cases hcreate
  cases hpool
  obtain ⟨hmod, -, hheld', hbad'⟩ := memalign_eq hmem
  have hge : 112 ≤ size := hmin
  have h16 : p % 16 = 0 := hmod
  have hpoolSize : poolSize = 80 := rfl
  have hmaxAlloc : maxAllocFromPool = 4095 := rfl
  have hrange : rangeAt p size = ⟨p, size⟩ := by rw [rangeAt, Nat.max_eq_left (by omega)]
  refine ⟨⟨by omega, hmin, hlt, ?_, ?_, by simp, ?_, ?_, ?_, ?_, ?_, ?_, ?_⟩, by simp, by simp [larges], by simp, by simp⟩
  · dsimp only
    split <;> omega
  · dsimp only
    split <;> omega
  · intro i b hb
    have hi : i = 0 := by
      obtain ⟨hi, -⟩ := List.getElem?_eq_some_iff.mp hb
      simp only [List.length_cons, List.length_nil] at hi
      omega
    subst hi
    cases hb
    refine ⟨rfl, ?_, Nat.le_refl _, ?_⟩
    · show 8 ∣ p
      omega
    · show p + poolSize ≤ p + size
      omega
  · intro r
    rw [hheld', hheld, hrange]
    simp [owned]
  · simp [owned, AllApart]
  · intro r hr
    simp only [owned, List.map_cons, List.map_nil, List.filterMap_nil, List.append_nil, List.nil_append,
      List.mem_singleton] at hr
    rw [hr]
    show 0 < size
    omega
  · simp [smalls, records, cleanupRecords, freeLinks]
  · simp [smalls, records, cleanupRecords, freeLinks, AllApart]
  · rw [hbad', hbad]

theorem Inv.small_placed (h : Inv psize s) (he : e ∈ s.live) (hsmall : e.large = false) : s.pool.Places e.range :=
  h.arena.placed e.range (List.mem_append_left _ (List.mem_map.mpr ⟨e, List.mem_filter.mpr ⟨he, by simp [hsmall]⟩, rfl⟩))

theorem block_mem {i : Nat} {b : Block} (hb : pool.blocks[i]? = some b) :
    ⟨b.addr, psize⟩ ∈ pool.blocks.map fun b => (⟨b.addr, psize⟩ : Range) :=
  List.mem_map.mpr ⟨b, List.mem_of_getElem? hb, rfl⟩

-- Blocks and large blocks do not meet.
theorem Arena.large_apart (h : Arena psize pool sys [] items) {i : Nat} {b : Block} (hb : pool.blocks[i]? = some b)
    {r : Range} (hr : r ∈ pool.large.filterMap Large.alloc) : Range.Apart ⟨b.addr, psize⟩ r :=
  (allApart_append.mp (allApart_append.mp h.apart).2.1).2.2 _ (block_mem hb) r hr

theorem Inv.safe (h : Inv psize s) : Safe s := by
  -- Where the blocks that are used lie
  have hplaced : ∀ e ∈ s.live, e.large = false →
      ∃ i b, s.pool.blocks[i]? = some b ∧ b.addr + header i ≤ e.range.addr ∧ e.range.Within ⟨b.addr, psize⟩ := by
    intro e he hsmall
    obtain ⟨i, b, hb, haddr, hstop⟩ := h.small_placed he hsmall
    exact ⟨i, b, hb, haddr, (h.arena.sound i b hb).within haddr hstop⟩
  have hcross : ∀ e ∈ s.live, ∀ e' ∈ s.live, e.large = false → e'.large = true → e.range.Apart e'.range := by
    intro e he e' he' hsmall hlarge
    obtain ⟨i, b, hb, -, hwithin⟩ := hplaced e he hsmall
    obtain ⟨r, hr, -, hwithin'⟩ := h.large e' he' hlarge
    exact (h.arena.large_apart hb hr).within hwithin hwithin'
  refine ⟨?_, h.aligned, ?_, ?_, h.arena.badFree⟩
  · intro e he
    cases hlarge : e.large with
    | false =>
        obtain ⟨i, b, hb, -, hwithin⟩ := hplaced e he hlarge
        exact ⟨_, (h.arena.held _).mpr (List.mem_append_right _ (List.mem_append_left _ (block_mem hb))), hwithin⟩
    | true =>
        obtain ⟨r, hr, -, hwithin⟩ := h.large e he hlarge
        exact ⟨r, (h.arena.held r).mpr (List.mem_append_right _ (List.mem_append_right _ hr)), hwithin⟩
  · have hsmalls : AllApart (smalls s.live) := (allApart_append.mp h.arena.items).1
    have hlarges : AllApart ((s.live.filter fun e => e.large).map Live.range) := by
      refine List.pairwise_map.mpr ((List.pairwise_map.mp h.nodup).imp_of_mem ?_)
      intro e e' he he' hne
      obtain ⟨he, hl⟩ := List.mem_filter.mp he
      obtain ⟨he', hl'⟩ := List.mem_filter.mp he'
      obtain ⟨r, hr, haddr, hwithin⟩ := h.large e he hl
      obtain ⟨r', hr', haddr', hwithin'⟩ := h.large e' he' hl'
      have hrr' : r ≠ r' := by
        intro heq
        rw [haddr, haddr', heq] at hne
        exact hne rfl
      have hapart : AllApart (s.pool.large.filterMap Large.alloc) := (allApart_append.mp (allApart_append.mp h.arena.apart).2.1).2.1
      exact (hapart.of_mem hr hr' hrr').within hwithin hwithin'
    have hboth : AllApart ((s.live.filter fun e => e.large).map Live.range ++ smalls s.live) := by
      refine allApart_append.mpr ⟨hlarges, hsmalls, ?_⟩
      intro r hr r' hr'
      obtain ⟨e, he, rfl⟩ := List.mem_map.mp hr
      obtain ⟨e', he', rfl⟩ := List.mem_map.mp hr'
      obtain ⟨he, hl⟩ := List.mem_filter.mp he
      obtain ⟨he', hl'⟩ := List.mem_filter.mp he'
      exact (hcross e' he' e he (by simpa using hl') hl).symm
    refine hboth.perm ?_
    rw [smalls, ← List.map_append]
    exact (List.filter_append_perm (fun e => e.large) s.live).map Live.range
  · intro e he r hr
    rcases List.mem_append.mp hr with hr | hr
    · -- The header of a block
      obtain ⟨j, hj, rfl⟩ := List.mem_mapIdx.mp hr
      have hc : s.pool.blocks[j]? = some s.pool.blocks[j] := List.getElem?_eq_getElem hj
      have hs := h.arena.sound j _ hc
      have hheader : Range.Within ⟨s.pool.blocks[j].addr, header j⟩ ⟨s.pool.blocks[j].addr, psize⟩ := by
        have hle := hs.header
        have hlast := hs.last
        have hendp := hs.endp
        exact ⟨Nat.le_refl _, by show s.pool.blocks[j].addr + header j ≤ s.pool.blocks[j].addr + psize; omega⟩
      cases hlarge : e.large with
      | false =>
          obtain ⟨i, b, hb, haddr, hwithin⟩ := hplaced e he hlarge
          by_cases hij : i = j
          · subst hij
            rw [hc, Option.some.injEq] at hb
            exact Or.inr (by rw [hb]; exact haddr)
          · exact (h.arena.blocks_apart hb hc hij).within hwithin hheader
      | true =>
          obtain ⟨r', hr', -, hwithin⟩ := h.large e he hlarge
          exact ((h.arena.large_apart hc hr').within hheader hwithin).symm
    · -- A record
      cases hlarge : e.large with
      | false =>
          exact (allApart_append.mp h.arena.items).2.2 e.range
            (List.mem_map.mpr ⟨e, List.mem_filter.mpr ⟨he, by simp [hlarge]⟩, rfl⟩) r hr
      | true =>
          obtain ⟨i, b, hb, haddr, hstop⟩ := h.arena.placed r (List.mem_append_right _ hr)
          obtain ⟨r', hr', -, hwithin⟩ := h.large e he hlarge
          exact ((h.arena.large_apart hb hr').within ((h.arena.sound i b hb).within haddr hstop) hwithin).symm

theorem freeBlocks (blocks : List Block) (hheld : ∀ r, r ∈ sys.held ↔ r ∈ blocks.map fun b => (⟨b.addr, psize⟩ : Range))
    (hapart : AllApart (blocks.map fun b => (⟨b.addr, psize⟩ : Range))) (hpos : 0 < psize) :
    (blocks.foldl (fun sys b => free b.addr sys) sys).held = [] ∧
      (blocks.foldl (fun sys b => free b.addr sys) sys).badFree = sys.badFree := by
  induction blocks generalizing sys with
  | nil =>
      refine ⟨?_, rfl⟩
      rw [List.foldl_nil, List.eq_nil_iff_forall_not_mem]
      intro r hr
      simpa using (hheld r).mp hr
  | cons b blocks ih =>
      rw [List.map_cons, allApart_cons] at hapart
      have hmem : (⟨b.addr, psize⟩ : Range) ∈ sys.held := (hheld _).mpr (by simp)
      have hfree : free b.addr sys = { sys with held := sys.held.filter fun r => r.addr != b.addr } := by
        rw [free, if_pos]
        exact List.any_eq_true.mpr ⟨_, hmem, by simp⟩
      rw [List.foldl_cons, hfree]
      refine ih (fun r => ?_) hapart.2
      show r ∈ sys.held.filter _ ↔ _
      rw [List.mem_filter, hheld, List.map_cons, List.mem_cons]
      constructor
      · rintro ⟨rfl | hr, hne⟩
        · simp at hne
        · exact hr
      · intro hr
        have hsize : 0 < r.size := by
          obtain ⟨c, -, rfl⟩ := List.mem_map.mp hr
          exact hpos
        have hne := (hapart.1 r hr).addr_ne hpos hsize
        exact ⟨Or.inr hr, by simpa using hne.symm⟩

-- All memory of the pool is given back, and nothing but what was held.
theorem Inv.destroy (h : Inv psize s) :
    (destroyPool s.pool s.sys).held = [] ∧ (destroyPool s.pool s.sys).badFree = false := by
  have hclear := h.arena.clearLarge
  have hge : 112 ≤ psize := hclear.psize_ge
  have howned : owned psize { s.pool with large := [] } = s.pool.blocks.map fun b => ⟨b.addr, psize⟩ := by
    simp [owned]
  have hheld := hclear.held
  have hapart := hclear.apart
  rw [howned, List.nil_append] at hheld hapart
  obtain ⟨hnil, hbad⟩ := freeBlocks s.pool.blocks hheld hapart (by omega)
  exact ⟨hnil, hbad.trans hclear.badFree⟩

-- Every ngx_reset_pool of a run is called on such a pool.
def Meets : State → List Op → Prop
  | _, [] => True
  | s, op :: ops => (op = .reset → Resettable s) ∧ ∀ s', step s op = some s' → Meets s' ops

theorem run_inv (h : Inv psize s) (ops : List Op) (hmeets : Meets s ops) (hrun : run s ops = some s') : Inv psize s' := by
  induction ops generalizing s with
  | nil =>
      cases hrun
      exact h
  | cons op ops ih =>
      obtain ⟨hop, hrest⟩ := hmeets
      simp only [run, Option.bind_eq_bind, Option.bind_eq_some_iff] at hrun
      obtain ⟨s₁, hstep, hrun⟩ := hrun
      exact ih (step_inv h hop hstep) (hrest s₁ hstep) hrun

-- Every large block is freed once: each free is of memory that is held, and nothing is held in the end.
theorem run_safe (hsize : 16 ∣ size) (hmin : minPoolSize ≤ size) (hlt : size < 2 ^ 64) (hheld : sys.held = [])
    (hbad : sys.badFree = false) (hcreate : create size sys = some s) (ops : List Op) (hmeets : Meets s ops)
    (hrun : run s ops = some s') :
    Safe s' ∧ (destroyPool s'.pool s'.sys).held = [] ∧ (destroyPool s'.pool s'.sys).badFree = false := by
  have hinv := run_inv (create_inv hsize hmin hlt hheld hbad hcreate) ops hmeets hrun
  exact ⟨hinv.safe, hinv.destroy⟩

theorem meets_of_ne (s : State) (ops : List Op) (h : ∀ op ∈ ops, op ≠ .reset) : Meets s ops := by
  induction ops generalizing s with
  | nil => trivial
  | cons op ops ih =>
      exact ⟨fun heq => absurd heq (h op (by simp)), fun s' _ => ih s' fun op' hop' => h op' (List.mem_cons_of_mem op hop')⟩

-- A reset without cleanup records and free links, between operations of other kinds
theorem meets_reset (s : State) (ops ops' : List Op) (h : ∀ op ∈ ops, op ≠ .reset) (h' : ∀ op ∈ ops', op ≠ .reset)
    (hlists : ∀ s', run s ops = some s' → s'.pool.cleanup = [] ∧ s'.pool.chain = []) :
    Meets s (ops ++ .reset :: ops') := by
  induction ops generalizing s with
  | nil =>
      obtain ⟨hcleanup, hchain⟩ := hlists s rfl
      refine ⟨fun _ r hr => ?_, fun s' _ => meets_of_ne s' ops' h'⟩
      simp [cleanupRecords, freeLinks, hcleanup, hchain] at hr
  | cons op ops ih =>
      refine ⟨fun heq => absurd heq (h op (by simp)), fun s' hstep => ?_⟩
      refine ih s' (fun op' hop' => h op' (List.mem_cons_of_mem op hop')) fun s'' hrun => hlists s'' ?_
      simp [run, hstep, hrun]

-- A pool of 1024 bytes at 4096
def smallPool : State := ⟨⟨[⟨4096, 4176, 5120, 0⟩], 944, 0, [], [], []⟩, ⟨[⟨4096, 1024⟩], [16384], false⟩, []⟩

def firstOps : List Op := [.palloc 100, .palloc 2000, .pnalloc 5, .pfree ⟨⟨16384, 2000⟩, true, true, false⟩]

def lastOps : List Op :=
  [.cleanupAdd 8, .allocChainLink, .freeChain ⟨⟨4208, 16⟩, false, false, true⟩, .allocChainLink, .palloc 30]

theorem run_safe_small :
    ∃ s', run smallPool (firstOps ++ .reset :: lastOps) = some s' ∧ Safe s' ∧
      (destroyPool s'.pool s'.sys).held = [] ∧ (destroyPool s'.pool s'.sys).badFree = false := by
  have hlists : ∀ s', run smallPool firstOps = some s' → s'.pool.cleanup = [] ∧ s'.pool.chain = [] := by
    intro s' hrun
    have hboth : (run smallPool firstOps).map (fun s => (s.pool.cleanup, s.pool.chain)) = some ([], []) := by decide
    rw [hrun, Option.map_some, Option.some.injEq, Prod.mk.injEq] at hboth
    exact hboth
  have hsome : (run smallPool (firstOps ++ .reset :: lastOps)).isSome = true := by decide +kernel
  obtain ⟨s', hrun⟩ := Option.isSome_iff_exists.mp hsome
  exact ⟨s', hrun, run_safe (show 16 ∣ 1024 by decide) (by decide) (by decide)
    (show (⟨[], [4096, 16384], false⟩ : Sys).held = [] from rfl) rfl
    (by decide) _ (meets_reset smallPool firstOps lastOps (by decide) (by decide) hlists) hrun⟩

-- The cleanup record stays linked, and its memory is given again.
theorem reset_keeps_cleanup :
    ¬ ∀ s', run smallPool [.cleanupAdd 0, .reset, .palloc 24] = some s' → Safe s' := by
  intro h
  have hrun : run smallPool [.cleanupAdd 0, .reset, .palloc 24] = some ⟨⟨[⟨4096, 4200, 5120, 0⟩], 944, 0, [], [], [⟨4176, 0⟩]⟩,
      ⟨[⟨4096, 1024⟩], [16384], false⟩, [⟨⟨4176, 24⟩, false, true, false⟩]⟩ := by decide
  have hapart := (h _ hrun).bookkeeping ⟨⟨4176, 24⟩, false, true, false⟩ (by simp) ⟨4176, 24⟩ (by decide)
  revert hapart
  decide

end Nginx.Palloc
