import Nginx.Core.OpenFileCache

namespace Nginx.OpenFileCache

-- How many cleanups refer to the file
def State.refs (s : State) (i : Nat) : Nat := s.cleanups.countP fun c => c.file == i

-- How many files have the descriptor, one file left out
def State.holders (s : State) (out : Option Nat) (fd : Nat) : Nat :=
  s.live.countP fun i => out != some i && (s.files i).fd == some fd

-- A file with its references; cached tells that it is in the tree.
structure Counted (file : CachedFile) (cached : Prop) (refs : Nat) : Prop where
  count : file.count = refs
  small : file.count < 2 ^ 24
  used : file.count ≠ 0 → file.fd ≠ none
  unopened : file.err ≠ 0 ∨ file.isDir = true → file.fd = none
  close : file.err = 0 → (file.close = false ↔ cached)

structure FileOk (file : CachedFile) (cached : Prop) (refs : Nat) : Prop extends Counted file cached refs where
  held : cached ∨ file.count ≠ 0

-- The books of the cache in the middle of a call: one file may be away from the queue, one may be out of the books,
-- and some descriptors are in hand.
structure Books (limits : Limits) (s : State) (away out : Option Nat) (hand : List Nat) : Prop where
  live : s.live.Nodup
  bound : ∀ i ∈ s.live, i < s.nextFile
  outside : ∀ i ∈ out, i ∈ s.live
  files : ∀ i ∈ s.live, out ≠ some i → FileOk (s.files i) (i ∈ s.tree) (s.refs i)
  refs : ∀ c ∈ s.cleanups, c.file ∈ s.live
  fds : ∀ fd, s.closed.count fd + s.holders out fd + hand.count fd = if fd < s.opened then 1 else 0
  tree : s.tree.Nodup
  cached : ∀ i ∈ s.tree, i ∈ s.live
  queue : (away.toList ++ s.queue).Perm s.tree
  current : s.current = s.tree.length
  max : s.current ≤ limits.max

variable {limits : Limits} {s : State} {i : Nat} {away out : Option Nat} {hand : List Nat}

theorem Counted.opened {file : CachedFile} {cached : Prop} {refs : Nat} (h : Counted file cached refs)
    (hcount : file.count ≠ 0) : file.err = 0 ∧ file.isDir = false := by
  have hfd := h.used hcount
  constructor
  · by_contra herr
    exact hfd (h.unopened (Or.inl herr))
  · rw [← Bool.not_eq_true]
    intro hdir
    exact hfd (h.unopened (Or.inr hdir))

-- A file in the books holds its own descriptor.
theorem holders_split (hlive : s.live.Nodup) (hi : i ∈ s.live) (fd : Nat) :
    s.holders none fd = s.holders (some i) fd + (s.files i).fd.toList.count fd := by
  unfold State.holders
  generalize s.live = live at hlive hi
  induction live with
  | nil => exact absurd hi (by simp)
  | cons j live ih =>
      obtain ⟨hj, hrest⟩ := List.nodup_cons.mp hlive
      rw [List.countP_cons, List.countP_cons]
      by_cases hij : j = i
      · subst hij
        have hsame : live.countP (fun k => none != some k && (s.files k).fd == some fd) =
            live.countP (fun k => some j != some k && (s.files k).fd == some fd) := by
          apply List.countP_congr
          intro k hk
          have hne : j ≠ k := fun h => hj (h ▸ hk)
          simp [hne]
        rw [hsame]
        cases hfd : (s.files j).fd with
        | none => simp
        | some d => simp [List.count_singleton]
      · have hmem : i ∈ live := by
          rcases List.mem_cons.mp hi with h | h
          · exact absurd h.symm hij
          · exact h
        have hne : i ≠ j := fun h => hij h.symm
        rw [ih hrest hmem]
        simp [hne]
        omega

namespace Books

theorem take (h : Books limits s away none hand) (hi : i ∈ s.live) :
    FileOk (s.files i) (i ∈ s.tree) (s.refs i) ∧ Books limits s away (some i) ((s.files i).fd.toList ++ hand) := by
  refine ⟨h.files i hi (by simp), { h with outside := ?_, files := ?_, fds := ?_ }⟩
  · intro j hj
    obtain rfl := Option.some.inj hj
    exact hi
  · intro j hj _
    exact h.files j hj (by simp)
  · intro fd
    have hfds := h.fds fd
    rw [holders_split h.live hi fd] at hfds
    rw [List.count_append]
    omega

theorem give (h : Books limits s away (some i) ((s.files i).fd.toList ++ hand))
    (hok : FileOk (s.files i) (i ∈ s.tree) (s.refs i)) : Books limits s away none hand := by
  have hi : i ∈ s.live := h.outside i rfl
  refine { h with outside := ?_, files := ?_, fds := ?_ }
  · intro j hj
    exact absurd hj (by simp)
  · intro j hj _
    by_cases hij : j = i
    · subst hij
      exact hok
    · exact h.files j hj (fun heq => hij (Option.some.inj heq).symm)
  · intro fd
    have hfds := h.fds fd
    rw [List.count_append] at hfds
    rw [holders_split h.live hi fd]
    omega

-- The file that is out may be changed.
theorem setFile (h : Books limits s away (some i) hand) (file : CachedFile) :
    Books limits (s.setFile i file) away (some i) hand := by
  have hother : ∀ j, j ≠ i → (s.setFile i file).files j = s.files j := fun j hj => if_neg hj
  refine { h with files := ?_, fds := ?_ }
  · intro j hj hout
    rw [hother j (fun heq => hout (by rw [heq]))]
    exact h.files j hj hout
  · intro fd
    have hsame : (s.setFile i file).holders (some i) fd = s.holders (some i) fd := by
      apply List.countP_congr
      intro j _
      by_cases hij : j = i
      · subst hij
        simp
      · rw [hother j hij]
    rw [hsame]
    exact h.fds fd

theorem closeFd {fd : Option Nat} (h : Books limits s away out (fd.toList ++ hand)) :
    Books limits (s.closeFd fd) away out hand := by
  cases fd with
  | none => exact h
  | some d =>
      refine { h with fds := ?_ }
      intro fd
      have hfds := h.fds fd
      rw [Option.toList_some, List.singleton_append, List.count_cons] at hfds
      show (d :: s.closed).count fd + s.holders out fd + hand.count fd = if fd < s.opened then 1 else 0
      rw [List.count_cons]
      omega

-- ngx_open_file
theorem openFile (h : Books limits s away out hand) :
    Books limits { s with opened := s.opened + 1 } away out (s.opened :: hand) := by
  refine { h with fds := ?_ }
  intro fd
  have hfds := h.fds fd
  show s.closed.count fd + s.holders out fd + (s.opened :: hand).count fd = if fd < s.opened + 1 then 1 else 0
  rw [List.count_cons]
  by_cases hfd : s.opened = fd
  · subst hfd
    rw [if_neg (Nat.lt_irrefl _)] at hfds
    rw [if_pos (Nat.lt_succ_self _)]
    simp
    omega
  · have hbeq : (s.opened == fd) = false := by simpa using hfd
    rw [hbeq, if_neg Bool.false_ne_true, Nat.add_zero, hfds]
    by_cases hlt : fd < s.opened
    · rw [if_pos hlt, if_pos (Nat.lt_succ_of_lt hlt)]
    · rw [if_neg hlt, if_neg (fun h => hlt (Nat.lt_of_le_of_ne (Nat.le_of_lt_succ h) (fun heq => hfd heq.symm)))]

theorem unqueue (h : Books limits s none (some i) hand) (hi : i ∈ s.tree) :
    Books limits (s.unqueue i) (some i) (some i) hand := by
  refine { h with queue := ?_ }
  have hmem : i ∈ s.queue := h.queue.mem_iff.mpr hi
  exact (List.perm_cons_erase hmem).symm.trans h.queue

theorem enqueue (h : Books limits s (some i) out hand) : Books limits (s.enqueue i) none out hand :=
  { h with queue := h.queue }

theorem mem_tree (h : Books limits s (some i) out hand) : i ∈ s.tree :=
  h.queue.mem_iff.mp (List.mem_append_left _ (by simp))

theorem delete (h : Books limits s (some i) (some i) hand) : Books limits (s.delete i) none (some i) hand := by
  have hi := h.mem_tree
  have hlen : (s.tree.erase i).length = s.tree.length - 1 := List.length_erase_of_mem hi
  have hother : ∀ j, some i ≠ some j → (j ∈ s.tree.erase i ↔ j ∈ s.tree) := by
    intro j hj
    exact List.mem_erase_of_ne (fun heq => hj (by rw [heq]))
  refine { h with files := ?_, tree := ?_, cached := ?_, queue := ?_, current := ?_, max := ?_ }
  · intro j hj hout
    have hok := h.files j hj hout
    show FileOk (s.files j) (j ∈ s.tree.erase i) (s.refs j)
    rw [propext (hother j hout)]
    exact hok
  · exact h.tree.erase i
  · intro j hj
    exact h.cached j (List.mem_of_mem_erase hj)
  · have hperm := h.queue.erase i
    simp only [Option.toList_some, List.singleton_append, List.erase_cons_head] at hperm
    exact hperm
  · show s.current - 1 = (s.tree.erase i).length
    rw [hlen, h.current]
  · show s.current - 1 ≤ limits.max
    have hmax := h.max
    omega

theorem free (h : Books limits s none (some i) hand) (hi : i ∉ s.tree) (hrefs : s.refs i = 0) :
    Books limits (s.free i) none none hand := by
  have hmem : ∀ j ∈ s.live.erase i, j ∈ s.live ∧ j ≠ i := by
    intro j hj
    have hne := h.live.mem_erase_iff.mp hj
    exact ⟨hne.2, hne.1⟩
  refine { h with live := ?_, bound := ?_, outside := ?_, files := ?_, refs := ?_, fds := ?_, cached := ?_ }
  · exact h.live.erase i
  · intro j hj
    exact h.bound j (hmem j hj).1
  · intro j hj
    exact absurd hj (by simp)
  · intro j hj _
    obtain ⟨hlive, hne⟩ := hmem j hj
    exact h.files j hlive (fun heq => hne (Option.some.inj heq).symm)
  · intro c hc
    apply (List.mem_erase_of_ne ?_).mpr (h.refs c hc)
    intro heq
    rw [State.refs, List.countP_eq_zero] at hrefs
    exact hrefs c hc (by simpa using heq)
  · intro fd
    have hsame : (s.free i).holders none fd = s.holders (some i) fd := by
      have hperm := List.perm_cons_erase (h.outside i rfl)
      have hall : s.holders (some i) fd =
          (i :: s.live.erase i).countP fun j => some i != some j && (s.files j).fd == some fd := hperm.countP_eq _
      rw [hall, List.countP_cons]
      show (s.live.erase i).countP _ = _
      rw [if_neg (by simp), Nat.add_zero]
      apply List.countP_congr
      intro j hj
      have hne : i ≠ j := fun heq => (hmem j hj).2 heq.symm
      simp [State.free, hne]
    rw [hsame]
    exact h.fds fd
  · intro j hj
    have hne : j ≠ i := fun heq => hi (heq ▸ hj)
    exact (List.mem_erase_of_ne hne).mpr (h.cached j hj)

theorem cleanupAdd (h : Books limits s away (some i) hand) (minUses : Nat) :
    Books limits { s with cleanups := ⟨i, minUses⟩ :: s.cleanups } away (some i) hand := by
  refine { h with files := ?_, refs := ?_ }
  · intro j hj hout
    have hne : i ≠ j := fun heq => hout (by rw [heq])
    have hok := h.files j hj hout
    have hsame : State.refs { s with cleanups := ⟨i, minUses⟩ :: s.cleanups } j = s.refs j := by
      simp [State.refs, hne]
    rw [hsame]
    exact hok
  · intro c hc
    rcases List.mem_cons.mp hc with rfl | hc
    · exact h.outside i rfl
    · exact h.refs c hc

theorem cleanupRun {c : Cleanup} (h : Books limits s away (some c.file) hand) (hc : c ∈ s.cleanups) :
    Books limits { s with cleanups := s.cleanups.erase c } away (some c.file) hand := by
  refine { h with files := ?_, refs := ?_ }
  · intro j hj hout
    have hne : c.file ≠ j := fun heq => hout (by rw [heq])
    have hok := h.files j hj hout
    have hsame : State.refs { s with cleanups := s.cleanups.erase c } j = s.refs j := by
      rw [State.refs, State.refs, (List.perm_cons_erase hc).countP_eq, List.countP_cons]
      simp [hne]
    rw [hsame]
    exact hok
  · intro d hd
    exact h.refs d (List.mem_of_mem_erase hd)

-- ngx_alloc and ngx_rbtree_insert
theorem add (h : Books limits s none none hand) (hmax : s.current < limits.max) :
    Books limits { s with nextFile := s.nextFile + 1, live := s.nextFile :: s.live, tree := s.nextFile :: s.tree,
                          current := s.current + 1 } (some s.nextFile) (some s.nextFile) hand ∧
      s.refs s.nextFile = 0 := by
  have hnew : s.nextFile ∉ s.live := fun hmem => Nat.lt_irrefl _ (h.bound _ hmem)
  have hold : ∀ j ∈ s.nextFile :: s.live, some s.nextFile ≠ some j → j ∈ s.live ∧ s.nextFile ≠ j := by
    intro j hj hout
    have hne : s.nextFile ≠ j := fun heq => hout (by rw [heq])
    rcases List.mem_cons.mp hj with heq | hmem
    · exact absurd heq.symm hne
    · exact ⟨hmem, hne⟩
  constructor
  · refine ⟨?_, ?_, ?_, ?_, ?_, ?_, ?_, ?_, ?_, ?_, ?_⟩
    · exact List.nodup_cons.mpr ⟨hnew, h.live⟩
    · intro j hj
      rcases List.mem_cons.mp hj with rfl | hmem
      · exact Nat.lt_succ_self _
      · exact Nat.lt_succ_of_lt (h.bound j hmem)
    · intro j hj
      obtain rfl := Option.some.inj hj
      exact List.mem_cons_self
    · intro j hj hout
      obtain ⟨hmem, hne⟩ := hold j hj hout
      have hok := h.files j hmem (by simp)
      have htree : (j ∈ s.nextFile :: s.tree) = (j ∈ s.tree) :=
        propext ⟨fun hj => (List.mem_cons.mp hj).resolve_left (fun heq => hne heq.symm), List.mem_cons_of_mem _⟩
      show FileOk (s.files j) (j ∈ s.nextFile :: s.tree) (s.refs j)
      rw [htree]
      exact hok
    · intro c hc
      exact List.mem_cons_of_mem _ (h.refs c hc)
    · intro fd
      have hsame : (s.nextFile :: s.live).countP (fun j => some s.nextFile != some j && (s.files j).fd == some fd) =
          s.holders none fd := by
        rw [List.countP_cons, if_neg (by simp), Nat.add_zero]
        apply List.countP_congr
        intro j hj
        have hne : s.nextFile ≠ j := fun heq => hnew (heq ▸ hj)
        simp [hne]
      show s.closed.count fd + _ + hand.count fd = _
      rw [State.holders]
      dsimp only
      rw [hsame]
      exact h.fds fd
    · exact List.nodup_cons.mpr ⟨fun hmem => hnew (h.cached _ hmem), h.tree⟩
    · intro j hj
      rcases List.mem_cons.mp hj with rfl | hmem
      · exact List.mem_cons_self
      · exact List.mem_cons_of_mem _ (h.cached j hmem)
    · exact List.Perm.cons _ h.queue
    · show s.current + 1 = (s.nextFile :: s.tree).length
      rw [h.current, List.length_cons]
    · exact hmax
  · rw [State.refs, List.countP_eq_zero]
    intro c hc heq
    have hlive := h.refs c hc
    rw [beq_iff_eq.mp heq] at hlive
    exact hnew hlive

end Books

end Nginx.OpenFileCache
