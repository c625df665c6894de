import Nginx.Core.Palloc.Steps

namespace Nginx.Palloc

open Ranges Hash

-- A block that was given and is still used: whether it is a large one, came from ngx_palloc, or is a chain link
structure Live where
  range : Range
  large : Bool
  aligned : Bool
  link : Bool
  deriving DecidableEq, Repr

structure State where
  pool : Pool
  sys : Sys
  live : List Live
  deriving DecidableEq, Repr

inductive Op where
  | palloc (size : Nat)
  | pnalloc (size : Nat)
  | pcalloc (size : Nat)
  | pmemalign (size boundary : Nat)
  | cleanupAdd (size : Nat)
  | allocChainLink
  | freeChain (e : Live)
  | pfree (e : Live)
  | reset
  deriving DecidableEq, Repr

def create (size : Nat) (sys : Sys) : Option State := do
  let (pool, sys) ← createPool size sys
  return ⟨pool, sys, []⟩

-- None is an operation that the caller may not do, or an answer that the system does not give.
def step (s : State) : Op → Option State
  | .palloc size | .pcalloc size => do
      let (m, pool, sys) ← palloc true s.pool size s.sys
      return ⟨pool, sys, ⟨⟨m, size⟩, s.pool.max < size, true, false⟩ :: s.live⟩
  | .pnalloc size => do
      let (m, pool, sys) ← palloc false s.pool size s.sys
      return ⟨pool, sys, ⟨⟨m, size⟩, s.pool.max < size, false, false⟩ :: s.live⟩
  | .pmemalign size boundary => do
      let (m, pool, sys) ← pmemalign s.pool size boundary s.sys
      return ⟨pool, sys, ⟨⟨m, size⟩, true, false, false⟩ :: s.live⟩
  | .cleanupAdd size => do
      let (data, pool, sys) ← cleanupAdd s.pool size s.sys
      return ⟨pool, sys, if size ≠ 0 then ⟨⟨data, size⟩, s.pool.max < size, true, false⟩ :: s.live else s.live⟩
  | .allocChainLink => do
      let (m, pool, sys) ← allocChainLink s.pool s.sys
      return ⟨pool, sys, ⟨⟨m, chainSize⟩, false, false, true⟩ :: s.live⟩
  | .freeChain e =>
      if e ∈ s.live ∧ e.link = true then some ⟨freeChain s.pool e.range.addr, s.sys, s.live.erase e⟩ else none
  | .pfree e =>
      if e ∈ s.live ∧ e.large = true then
        let (pool, sys) := pfree s.pool e.range.addr s.sys
        some ⟨pool, sys, s.live.erase e⟩
      else none
  | .reset =>
      let (pool, sys) := resetPool s.pool s.sys
      some ⟨pool, sys, []⟩

def run (s : State) : List Op → Option State
  | [] => some s
  | op :: ops => do
      let s ← step s op
      run s ops

def cleanupRecords (pool : Pool) : List Range := pool.cleanup.map fun c => ⟨c.record, cleanupSize⟩

def freeLinks (pool : Pool) : List Range := pool.chain.map fun a => ⟨a, chainSize⟩

def records (pool : Pool) : List Range :=
  (pool.large.map Large.record).map (fun a => ⟨a, largeSize⟩) ++ (cleanupRecords pool ++ freeLinks pool)

def headers (pool : Pool) : List Range := pool.blocks.mapIdx fun i b => ⟨b.addr, header i⟩

-- What is promised of a state
structure Safe (s : State) : Prop where
  inside : ∀ e ∈ s.live, ∃ r ∈ s.sys.held, e.range.Within r
  aligned : ∀ e ∈ s.live, e.aligned = true → 8 ∣ e.range.addr
  apart : AllApart (s.live.map Live.range)
  bookkeeping : ∀ e ∈ s.live, ∀ r ∈ headers s.pool ++ records s.pool, e.range.Apart r
  badFree : s.sys.badFree = false

def smalls (live : List Live) : List Range := (live.filter fun e => !e.large).map Live.range

def larges (live : List Live) : List Nat := (live.filter fun e => e.large).map fun e => e.range.addr

structure Inv (psize : Nat) (s : State) : Prop where
  arena : Arena psize s.pool s.sys [] (smalls s.live ++ records s.pool)
  large : ∀ e ∈ s.live, e.large = true →
    ∃ r ∈ s.pool.large.filterMap Large.alloc, e.range.addr = r.addr ∧ e.range.Within r
  nodup : (larges s.live).Nodup
  aligned : ∀ e ∈ s.live, e.aligned = true → 8 ∣ e.range.addr
  link : ∀ e ∈ s.live, e.link = true → e.large = false ∧ e.range.size = chainSize

variable {psize size m : Nat} {pool pool' : Pool} {sys sys' : Sys} {s s' : State} {aligned : Bool} {e : Live}
  {items items' : List Range}

theorem Arena.perm (h : Arena psize pool sys [] items) (hperm : items.Perm items') : Arena psize pool sys [] items' :=
  h.mono (fun _ hr => hperm.mem_iff.mpr hr) (h.items.perm hperm)

theorem Keeps.records (h : Keeps pool pool') : records pool' = records pool := by
  simp only [Palloc.records, cleanupRecords, freeLinks, h.large, h.cleanup, h.chain]

theorem smalls_cons_small (he : e.large = false) (live : List Live) : smalls (e :: live) = e.range :: smalls live := by
  simp [smalls, he]

theorem smalls_cons_large (he : e.large = true) (live : List Live) : smalls (e :: live) = smalls live := by
  simp [smalls, he]

theorem larges_cons_small (he : e.large = false) (live : List Live) : larges (e :: live) = larges live := by
  simp [larges, he]

theorem larges_cons_large (he : e.large = true) (live : List Live) :
    larges (e :: live) = e.range.addr :: larges live := by
  simp [larges, he]

-- A small block is given.
theorem Inv.addSmall (h : Inv psize s) (hkeeps : Keeps s.pool pool')
    (harena : Arena psize pool' sys' [] (e.range :: (smalls s.live ++ records s.pool))) (he : e.large = false)
    (haligned : e.aligned = true → 8 ∣ e.range.addr) (hlink : e.link = true → e.range.size = chainSize) :
    Inv psize ⟨pool', sys', e :: s.live⟩ := by
  refine ⟨?_, ?_, ?_, ?_, ?_⟩
  · rw [hkeeps.records, smalls_cons_small he]
    exact harena
  · intro e' he' hlarge
    rcases List.mem_cons.mp he' with rfl | he'
    · rw [he] at hlarge
      cases hlarge
    · show ∃ r ∈ pool'.large.filterMap Large.alloc, _
      rw [hkeeps.large]
      exact h.large e' he' hlarge
  · show (larges (e :: s.live)).Nodup
    rw [larges_cons_small he]
    exact h.nodup
  · intro e' he' halign
    rcases List.mem_cons.mp he' with rfl | he'
    · exact haligned halign
    · exact h.aligned e' he' halign
  · intro e' he' hlink'
    rcases List.mem_cons.mp he' with rfl | he'
    · exact ⟨he, hlink hlink'⟩
    · exact h.link e' he' hlink'

-- A large block is given, with records for it or in a record that was free.
theorem Inv.addLarge (h : Inv psize s) {r : List Nat}
    (hperm : (rangeAt m size :: s.pool.large.filterMap Large.alloc).Perm (pool'.large.filterMap Large.alloc))
    (hchain : pool'.chain = s.pool.chain) (hcleanup : pool'.cleanup = s.pool.cleanup)
    (hrecord : pool'.large.map Large.record = r ++ s.pool.large.map Large.record)
    (harena : Arena psize pool' sys' [] ((r.map fun a => ⟨a, largeSize⟩) ++ (smalls s.live ++ records s.pool)))
    (he : e.large = true) (hrange : e.range = ⟨m, size⟩) (haligned : e.aligned = true → 8 ∣ m) (hlink : e.link = false) :
    Inv psize ⟨pool', sys', e :: s.live⟩ := by
  have hapart : AllApart (rangeAt m size :: s.pool.large.filterMap Large.alloc) :=
    ((allApart_append.mp harena.apart).2.1).sublist (List.sublist_append_right _ _) |>.perm hperm.symm
  refine ⟨?_, ?_, ?_, ?_, ?_⟩
  · rw [smalls_cons_large he]
    refine harena.perm ?_
    have hrecords : records pool' = (r.map fun a => ⟨a, largeSize⟩) ++ records s.pool := by
      simp only [records, cleanupRecords, freeLinks, hchain, hcleanup, hrecord, List.map_append, List.append_assoc]
    rw [hrecords, ← List.append_assoc, ← List.append_assoc]
    exact List.perm_append_comm.append_right _
  · intro e' he' hlarge
    rcases List.mem_cons.mp he' with rfl | he'
    · refine ⟨rangeAt m size, hperm.mem_iff.mp (by simp), by rw [hrange]; rfl, ?_⟩
      rw [hrange]
      refine ⟨Nat.le_refl _, ?_⟩
      show m + size ≤ m + max size 1
      omega
    · obtain ⟨r, hr, hwithin⟩ := h.large e' he' hlarge
      exact ⟨r, hperm.mem_iff.mp (List.mem_cons_of_mem _ hr), hwithin⟩
  · show (larges (e :: s.live)).Nodup
    rw [larges_cons_large he, List.nodup_cons]
    refine ⟨?_, h.nodup⟩
    intro hmem
    obtain ⟨e', he', haddr⟩ := List.mem_map.mp hmem
    obtain ⟨he', hlarge⟩ := List.mem_filter.mp he'
    obtain ⟨r, hr, hraddr, -⟩ := h.large e' he' hlarge
    have hne := ((allApart_cons.mp hapart).1 r hr).addr_ne
      (Nat.lt_of_lt_of_le Nat.one_pos (Nat.le_max_right _ _)) (h.arena.pos r (by simp [owned, List.mem_filterMap.mp hr]))
    rw [hrange] at haddr
    exact hne (haddr.symm.trans hraddr)
  · intro e' he' halign
    rcases List.mem_cons.mp he' with rfl | he'
    · rw [hrange]
      exact haligned halign
    · exact h.aligned e' he' halign
  · intro e' he' hlink'
    rcases List.mem_cons.mp he' with rfl | he'
    · rw [hlink] at hlink'
      cases hlink'
    · exact h.link e' he' hlink'

theorem Inv.palloc (h : Inv psize s) (hp : palloc aligned s.pool size s.sys = some (m, pool', sys')) :
    Inv psize ⟨pool', sys', ⟨⟨m, size⟩, s.pool.max < size, aligned, false⟩ :: s.live⟩ := by
  rw [Palloc.palloc] at hp
  split at hp
  · rename_i hsize
    obtain ⟨harena, hdvd, hkeeps⟩ := h.arena.pallocSmall hsize hp
    exact h.addSmall hkeeps harena (by simpa using hsize) hdvd (by simp)
  · rename_i hsize
    obtain ⟨-, hchain, hcleanup, hdvd, hperm, record, hrecord, harena⟩ := h.arena.pallocLarge hp
    exact h.addLarge hperm hchain hcleanup hrecord harena (by simpa using hsize) rfl (fun _ => hdvd) rfl

theorem Inv.pmemalign (h : Inv psize s) {boundary : Nat}
    (hp : pmemalign s.pool size boundary s.sys = some (m, pool', sys')) :
    Inv psize ⟨pool', sys', ⟨⟨m, size⟩, true, false, false⟩ :: s.live⟩ := by
  simp only [Palloc.pmemalign, Option.bind_eq_bind, Option.bind_eq_some_iff] at hp
  obtain ⟨⟨a, sys₁⟩, hmem, hp⟩ := hp
  obtain ⟨rfl, -, hchain, hcleanup, record, hlarge, harena⟩ := (h.arena.memalign hmem).linkLarge hp
  refine h.addLarge (r := [record]) ?_ hchain hcleanup (by rw [hlarge]; rfl) harena rfl rfl (by simp) rfl
  rw [hlarge, List.filterMap_cons]

theorem Inv.permLive (h : Inv psize s) {live : List Live} (hperm : s.live.Perm live) :
    Inv psize ⟨s.pool, s.sys, live⟩ where
  arena := h.arena.perm (((hperm.filter _).map _).append_right _)
  large := fun e he => h.large e (hperm.mem_iff.mpr he)
  nodup := ((hperm.filter _).map _).nodup_iff.mp h.nodup
  aligned := fun e he => h.aligned e (hperm.mem_iff.mpr he)
  link := fun e he => h.link e (hperm.mem_iff.mpr he)

theorem perm_insert (r : Range) (a b c : List Range) : (r :: (a ++ (b ++ c))).Perm (a ++ (b ++ r :: c)) := by
  rw [← List.append_assoc, ← List.append_assoc]
  exact List.perm_middle.symm

theorem Inv.cleanupAdd (h : Inv psize s) {data : Nat}
    (hp : cleanupAdd s.pool size s.sys = some (data, pool', sys')) :
    Inv psize ⟨pool', sys', if size ≠ 0 then ⟨⟨data, size⟩, s.pool.max < size, true, false⟩ :: s.live else s.live⟩ := by
  simp only [Palloc.cleanupAdd, Option.bind_eq_bind, Option.bind_eq_some_iff] at hp
  obtain ⟨⟨record, pool₁, sys₁⟩, hrecord, hp⟩ := hp
  have hmax := h.arena.max_ge
  have hcleanupSize : cleanupSize = 24 := rfl
  rw [Palloc.palloc, if_pos (by omega)] at hrecord
  obtain ⟨harena, -, hkeeps⟩ := h.arena.pallocSmall (by omega) hrecord
  -- The record belongs to the pool as soon as it is linked; until then it counts as a block that is used.
  have hlinked : ∀ pool₂ sys₂ live₂, Inv psize ⟨pool₂, sys₂, ⟨⟨record, cleanupSize⟩, false, false, false⟩ :: live₂⟩ →
      Inv psize ⟨{ pool₂ with cleanup := ⟨record, data⟩ :: pool₂.cleanup }, sys₂, live₂⟩ := by
    intro pool₂ sys₂ live₂ hinv
    refine ⟨?_, fun e he => hinv.large e (List.mem_cons_of_mem _ he), ?_,
      fun e he => hinv.aligned e (List.mem_cons_of_mem _ he), fun e he => hinv.link e (List.mem_cons_of_mem _ he)⟩
    · have hperm : (smalls (⟨⟨record, cleanupSize⟩, false, false, false⟩ :: live₂) ++ records pool₂).Perm
          (smalls live₂ ++ records { pool₂ with cleanup := ⟨record, data⟩ :: pool₂.cleanup }) := by
        rw [smalls_cons_small rfl]
        simp only [records, cleanupRecords, freeLinks, List.map_cons, List.cons_append]
        exact perm_insert _ _ _ _
      have hpool := hinv.arena.perm hperm
      exact { hpool with
        sound := hpool.sound
        held := hpool.held
        apart := hpool.apart
        pos := hpool.pos
        placed := hpool.placed }
    · have hnodup := hinv.nodup
      rw [larges_cons_small rfl] at hnodup
      exact hnodup
  have hfirst : Inv psize ⟨pool₁, sys₁, ⟨⟨record, cleanupSize⟩, false, false, false⟩ :: s.live⟩ :=
    h.addSmall hkeeps harena rfl (by simp) (by simp)
  split at hp
  · rename_i hsize
    rw [if_pos hsize]
    simp only [Option.bind_eq_some_iff] at hp
    obtain ⟨⟨data', pool₂, sys₂⟩, hdata, hp⟩ := hp
    cases hp
    have hblock := hfirst.palloc hdata
    rw [hkeeps.max] at hblock
    exact hlinked pool₂ sys₂ _ (hblock.permLive (List.Perm.swap _ _ _))
  · rename_i hsize
    rw [if_neg hsize]
    cases hp
    exact hlinked pool₁ sys₁ s.live hfirst

-- A link of the pool's chain becomes a block that is used, or is one again.
theorem Inv.relink {chain : List Nat} {live : List Live} (h : Inv psize s)
    (hperm : (smalls s.live ++ freeLinks s.pool).Perm (smalls live ++ freeLinks { s.pool with chain := chain }))
    (hlarge : ∀ e ∈ live, e.large = true → e ∈ s.live) (hnodup : (larges live).Nodup)
    (haligned : ∀ e ∈ live, e.aligned = true → e ∈ s.live)
    (hlink : ∀ e ∈ live, e.link = true → e.large = false ∧ e.range.size = chainSize) :
    Inv psize ⟨{ s.pool with chain := chain }, s.sys, live⟩ := by
  have hall : (smalls s.live ++ records s.pool).Perm (smalls live ++ records { s.pool with chain := chain }) := by
    have hswap : ∀ a b c : List Range, (a ++ (b ++ c)).Perm (b ++ (a ++ c)) := by
      intro a b c
      rw [← List.append_assoc, ← List.append_assoc]
      exact List.perm_append_comm.append_right c
    have hsame : cleanupRecords { s.pool with chain := chain } = cleanupRecords s.pool := rfl
    unfold records
    rw [hsame, ← List.append_assoc _ (cleanupRecords s.pool), ← List.append_assoc _ (cleanupRecords s.pool)]
    exact (hswap _ _ _).trans ((hperm.append_left _).trans (hswap _ _ _))
  have harena := h.arena.perm hall
  refine ⟨?_, fun e he hl => h.large e (hlarge e he hl) hl, hnodup,
    fun e he ha => h.aligned e (haligned e he ha) ha, hlink⟩
  exact { harena with
    sound := harena.sound
    held := harena.held
    apart := harena.apart
    pos := harena.pos
    placed := harena.placed }

theorem Inv.allocChainLink (h : Inv psize s) (hp : allocChainLink s.pool s.sys = some (m, pool', sys')) :
    Inv psize ⟨pool', sys', ⟨⟨m, chainSize⟩, false, false, true⟩ :: s.live⟩ := by
  rw [Palloc.allocChainLink] at hp
  split at hp
  · rename_i link chain hchain
    cases hp
    refine h.relink ?_ ?_ ?_ ?_ ?_
    · rw [smalls_cons_small rfl]
      simp only [freeLinks, hchain, List.map_cons, List.cons_append]
      exact List.perm_middle
    · intro e he hl
      rcases List.mem_cons.mp he with rfl | he
      · cases hl
      · exact he
    · rw [larges_cons_small rfl]
      exact h.nodup
    · intro e he ha
      rcases List.mem_cons.mp he with rfl | he
      · cases ha
      · exact he
    · intro e he hl
      rcases List.mem_cons.mp he with rfl | he
      · exact ⟨rfl, rfl⟩
      · exact h.link e he hl
  · have hmax := h.arena.max_ge
    have hchainSize : chainSize = 16 := rfl
    rw [Palloc.palloc, if_pos (by omega)] at hp
    obtain ⟨harena, -, hkeeps⟩ := h.arena.pallocSmall (by omega) hp
    exact h.addSmall hkeeps harena rfl (by simp) fun _ => rfl

theorem Inv.freeChain (h : Inv psize s) (he : e ∈ s.live) (hlink : e.link = true) :
    Inv psize ⟨freeChain s.pool e.range.addr, s.sys, s.live.erase e⟩ := by
  obtain ⟨hsmall, hsize⟩ := h.link e he hlink
  have hperm := List.perm_cons_erase he
  have herase : ∀ e' ∈ s.live.erase e, e' ∈ s.live := fun e' he' => List.mem_of_mem_erase he'
  refine h.relink ?_ (fun e' he' _ => herase e' he') ?_ (fun e' he' _ => herase e' he')
    (fun e' he' hl => h.link e' (herase e' he') hl)
  · have hsmalls : (smalls s.live).Perm (e.range :: smalls (s.live.erase e)) := by
      rw [← smalls_cons_small hsmall]
      exact (hperm.filter _).map _
    have hrange : e.range = ⟨e.range.addr, chainSize⟩ := by rw [← hsize]
    refine (hsmalls.append_right _).trans ?_
    simp only [freeLinks, List.map_cons, List.cons_append]
    rw [← hrange]
    exact List.perm_middle.symm
  · exact h.nodup.sublist (((List.erase_sublist).filter _).map _)

theorem Inv.pfree (h : Inv psize s) (he : e ∈ s.live) (hlarge : e.large = true) :
    Inv psize ⟨(pfree s.pool e.range.addr s.sys).1, (pfree s.pool e.range.addr s.sys).2, s.live.erase e⟩ := by
  obtain ⟨r, hr, haddr, -⟩ := h.large e he hlarge
  have hperm := List.perm_cons_erase he
  rw [Palloc.pfree]
  split
  · rename_i large hdrop
    obtain ⟨r', hr', hlargePerm, hrecord⟩ := dropLarge_some hdrop
    have hrecords : records { s.pool with large := large } = records s.pool := by
      simp only [records, hrecord]
      rfl
    have hsmalls : (smalls s.live).Perm (smalls (s.live.erase e)) := by
      have hcons := smalls_cons_large hlarge (s.live.erase e)
      rw [← hcons]
      exact (hperm.filter _).map _
    have hmoved : ([] ++ s.pool.large.filterMap Large.alloc).Perm ([r'] ++ large.filterMap Large.alloc) := hlargePerm
    have harena := (h.arena.withLarge hmoved).free
    rw [hr'] at harena
    refine ⟨?_, ?_, ?_, fun e' he' => h.aligned e' (List.mem_of_mem_erase he'),
      fun e' he' => h.link e' (List.mem_of_mem_erase he')⟩
    · rw [hrecords]
      exact harena.perm (hsmalls.append_right _)
    · intro e' he' hl
      obtain ⟨r₁, hr₁, haddr₁, hwithin₁⟩ := h.large e' (List.mem_of_mem_erase he') hl
      refine ⟨r₁, ?_, haddr₁, hwithin₁⟩
      rcases List.mem_cons.mp (hlargePerm.mem_iff.mp hr₁) with rfl | hmem
      · have hnodup : (e.range.addr :: larges (s.live.erase e)).Nodup := by
          rw [← larges_cons_large hlarge]
          exact ((hperm.filter _).map _).nodup_iff.mp h.nodup
        refine absurd ?_ (List.nodup_cons.mp hnodup).1
        rw [← hr', ← haddr₁]
        exact List.mem_map.mpr ⟨e', List.mem_filter.mpr ⟨he', hl⟩, rfl⟩
      · exact hmem
    · exact h.nodup.sublist (((List.erase_sublist).filter _).map _)
  · rename_i hnone
    exact absurd haddr.symm (dropLarge_none hnone r hr)

end Nginx.Palloc
