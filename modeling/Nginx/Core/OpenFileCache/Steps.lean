import Nginx.Core.OpenFileCache.Books

namespace Nginx.OpenFileCache

variable {limits : Limits} {s : State} {i : Nat} {away : Option Nat} {hand : List Nat}

theorem setFile_files (s : State) (i : Nat) (file : CachedFile) : (s.setFile i file).files i = file := if_pos rfl

theorem closeFd_files (s : State) (fd : Option Nat) : (s.closeFd fd).files = s.files := by
  cases fd <;> rfl

theorem closeFd_tree (s : State) (fd : Option Nat) : (s.closeFd fd).tree = s.tree := by
  cases fd <;> rfl

theorem closeFd_refs (s : State) (fd : Option Nat) (i : Nat) : (s.closeFd fd).refs i = s.refs i := by
  cases fd <;> rfl

-- A file goes back into the books with what is written to it.
theorem Books.giveFile {file : CachedFile} (h : Books limits s away (some i) (file.fd.toList ++ hand))
    (hok : FileOk file (i ∈ s.tree) (s.refs i)) : Books limits (s.setFile i file) away none hand := by
  apply Books.give
  · rw [setFile_files]
    exact h.setFile file
  · rw [setFile_files]
    exact hok

theorem closeUnused_books (h : Books limits s none (some i) ((s.files i).fd.toList ++ hand))
    (hok : Counted (s.files i) (i ∈ s.tree) (s.refs i)) (herr : (s.files i).err = 0) :
    Books limits (closeUnused s i) none none hand := by
  unfold closeUnused
  dsimp only
  split
  · rename_i hcount
    exact h.give ⟨hok, Or.inr hcount⟩
  · rename_i hcount
    have hzero : (s.files i).count = 0 := not_not.mp hcount
    have hclosed := h.closeFd
    split
    · rename_i hclose
      have hopen : (s.files i).close = false := by simpa using hclose
      apply hclosed.giveFile
      rw [closeFd_tree, closeFd_refs]
      exact ⟨⟨hok.count, hok.small, fun hne => absurd hzero hne, fun _ => rfl, hok.close⟩,
        Or.inl ((hok.close herr).mp hopen)⟩
    · rename_i hclose
      apply (hclosed.setFile _).free
      · intro hmem
        have htree : i ∈ s.tree := by
          rw [← closeFd_tree s (s.files i).fd]
          exact hmem
        have hopen := (hok.close herr).mpr htree
        rw [hopen] at hclose
        exact hclose rfl
      · show (s.closeFd (s.files i).fd).refs i = 0
        rw [closeFd_refs, ← hok.count, hzero]

theorem closeCachedFile_books (now : Int) (minUses : Nat) (h : Books limits s none (some i) ((s.files i).fd.toList ++ hand))
    (hok : Counted (s.files i) (i ∈ s.tree) (s.refs i)) (herr : (s.files i).err = 0) :
    Books limits (closeCachedFile now s i minUses) none none hand := by
  unfold closeCachedFile
  dsimp only
  split
  · rename_i hclose
    have hopen : (s.files i).close = false := by simpa using hclose
    have htree := (hok.close herr).mp hopen
    have hmoved := ((h.setFile { s.files i with accessed := now }).unqueue htree).enqueue
    have hfile : (((s.setFile i { s.files i with accessed := now }).unqueue i).enqueue i).files i =
        { s.files i with accessed := now } := setFile_files s i _
    have hcounted : Counted { s.files i with accessed := now } (i ∈ s.tree) (s.refs i) :=
      ⟨hok.count, hok.small, hok.used, hok.unopened, hok.close⟩
    split
    · apply Books.give
      · rw [hfile]
        exact hmoved
      · rw [hfile]
        exact ⟨hcounted, Or.inl htree⟩
    · apply closeUnused_books
      · rw [hfile]
        exact hmoved
      · rw [hfile]
        exact hcounted
      · rw [hfile]
        exact herr
  · exact closeUnused_books h hok herr

theorem expireFile_books (now : Int) (h : Books limits s none none hand) (hi : i ∈ s.queue) :
    Books limits (expireFile now s i) none none hand := by
  have htree : i ∈ s.tree := h.queue.mem_iff.mp hi
  obtain ⟨hok, htaken⟩ := h.take (h.cached i htree)
  have hgone : i ∉ (s.tree.erase i) := h.tree.not_mem_erase
  have hdeleted := (htaken.unqueue htree).delete
  unfold expireFile
  dsimp only
  split
  · rename_i hopen
    apply closeCachedFile_books
    · rw [setFile_files]
      exact hdeleted.setFile _
    · rw [setFile_files]
      exact ⟨hok.count, hok.small, hok.used, hok.unopened, fun _ => iff_of_false (by simp) hgone⟩
    · rw [setFile_files]
      exact hopen.1
  · rename_i hclosed
    have hfd : (s.files i).fd = none := by
      apply hok.unopened
      by_contra hne
      rw [not_or, not_not, Bool.not_eq_true] at hne
      exact hclosed hne
    have hcount : (s.files i).count = 0 := by
      by_contra hne
      exact hok.used hne hfd
    rw [hfd] at hdeleted
    exact hdeleted.free hgone (show s.refs i = 0 from hok.count ▸ hcount)

theorem closeUnused_current (s : State) (i : Nat) : (closeUnused s i).current = s.current := by
  unfold closeUnused
  dsimp only
  split
  · rfl
  · have hclose : ∀ fd, (s.closeFd fd).current = s.current := fun fd => by cases fd <;> rfl
    split <;> exact hclose _

theorem expireFile_current (now : Int) (s : State) (i : Nat) : (expireFile now s i).current = s.current - 1 := by
  unfold expireFile
  dsimp only
  split
  · unfold closeCachedFile
    rw [setFile_files]
    exact closeUnused_current _ i
  · rfl

theorem expireLoop_books (now : Int) (left n : Nat) (h : Books limits s none none hand) :
    Books limits (expireLoop limits now left n s) none none hand ∧ (expireLoop limits now left n s).current ≤ s.current := by
  induction left generalizing n s with
  | zero => exact ⟨h, Nat.le_refl _⟩
  | succ left ih =>
      rw [expireLoop]
      cases hlast : s.queue.getLast? with
      | none => exact ⟨h, Nat.le_refl _⟩
      | some i =>
          dsimp only
          split
          · exact ⟨h, Nat.le_refl _⟩
          · obtain ⟨hbooks, hle⟩ := ih (n + 1) (expireFile_books now h (List.mem_of_getLast? hlast))
            rw [expireFile_current] at hle
            exact ⟨hbooks, by omega⟩

-- The least recently used file goes by force.
theorem expireOld_forced (now : Int) (h : Books limits s none none hand) (hcurrent : 0 < s.current) :
    (expireOld limits now 0 s).current < s.current := by
  have hlen : s.queue.length = s.tree.length := h.queue.length_eq
  cases hlast : s.queue.getLast? with
  | none =>
      rw [List.getLast?_eq_none_iff] at hlast
      have hzero := h.current
      rw [hlast, List.length_nil] at hlen
      omega
  | some i =>
      rw [expireOld, expireLoop, hlast]
      dsimp only
      rw [if_neg (fun hne => hne.1 rfl)]
      have hle := (expireLoop_books now 2 (0 + 1) (expireFile_books now h (List.mem_of_getLast? hlast))).2
      rw [expireFile_current] at hle
      omega

theorem fileCleanup_books (now : Int) {c : Cleanup} (h : Books limits s none none hand) (hc : c ∈ s.cleanups) :
    Books limits (fileCleanup limits now s c) none none hand := by
  obtain ⟨hok, htaken⟩ := h.take (h.refs c hc)
  have hrefs : s.refs c.file = State.refs { s with cleanups := s.cleanups.erase c } c.file + 1 := by
    rw [State.refs, State.refs, (List.perm_cons_erase hc).countP_eq, List.countP_cons]
    simp
  have hcount := hok.count
  have hsmall := hok.small
  have hne : (s.files c.file).count ≠ 0 := by omega
  have hdown : countDown (s.files c.file).count = (s.files c.file).count - 1 := by
    unfold countDown
    omega
  unfold fileCleanup
  apply (expireLoop_books now _ _ _).1
  apply closeCachedFile_books
  · rw [setFile_files]
    exact (htaken.cleanupRun hc).setFile _
  · rw [setFile_files]
    refine ⟨?_, ?_, fun _ => hok.used hne, hok.unopened, hok.close⟩
    · show countDown (s.files c.file).count = State.refs { s with cleanups := s.cleanups.erase c } c.file
      omega
    · show countDown (s.files c.file).count < 2 ^ 24
      omega
  · rw [setFile_files]
    exact (hok.opened hne).1

variable {limits : Limits} {s : State} {i : Nat} {of : OpenFileInfo} (env : Env)

-- A descriptor stands there for a file, and only for a file.
structure Filled (of : OpenFileInfo) : Prop where
  opened : of.err = 0 → of.isDir = false → of.fd ≠ none
  unopened : of.err ≠ 0 ∨ of.isDir = true → of.fd = none

-- A cleanup is set for the file.
def HandsOut (of : OpenFileInfo) : Prop := of.err = 0 ∧ of.isDir = false

instance (of : OpenFileInfo) : Decidable (HandsOut of) := inferInstanceAs (Decidable (_ ∧ _))

theorem found_books (h : Books limits s (some i) (some i) (s.files i).fd.toList)
    (hok : FileOk (s.files i) (i ∈ s.tree) (s.refs i + if HandsOut of then 1 else 0)) :
    Books limits (found env s i of).1 none none [] := by
  rw [← List.append_nil (s.files i).fd.toList] at h
  have hmoved := (h.setFile { s.files i with accessed := env.now }).enqueue
  have hfile : ((s.setFile i { s.files i with accessed := env.now }).enqueue i).files i =
      { s.files i with accessed := env.now } := setFile_files s i _
  have hgiven : ∀ n, s.refs i + (if HandsOut of then 1 else 0) = n →
      FileOk { s.files i with accessed := env.now } (i ∈ s.tree) n := by
    rintro n rfl
    exact ⟨⟨hok.count, hok.small, hok.used, hok.unopened, hok.close⟩, hok.held⟩
  unfold found
  dsimp only
  split
  · rename_i herr
    split
    · rename_i hdir
      apply Books.give
      · rw [hfile]
        exact hmoved
      · rw [hfile]
        apply hgiven
        rw [if_neg (fun hands => by rw [hands.2] at hdir; exact absurd hdir (by simp))]
        rfl
    · rename_i hdir
      rw [Bool.not_eq_true] at hdir
      have hadded := hmoved.cleanupAdd of.minUses
      apply Books.give (i := i)
      · show Books limits _ none (some i)
          ((((s.setFile i { s.files i with accessed := env.now }).enqueue i).files i).fd.toList ++ [])
        rw [hfile]
        exact hadded
      · show FileOk (((s.setFile i { s.files i with accessed := env.now }).enqueue i).files i) _ _
        rw [hfile]
        apply hgiven
        rw [if_pos ⟨herr, hdir⟩]
        simp [State.refs, State.enqueue, State.setFile]
  · rename_i herr
    apply Books.give
    · rw [hfile]
      exact hmoved
    · rw [hfile]
      apply hgiven
      rw [if_neg (fun hands => herr hands.1)]
      rfl

theorem update_books (h : Books limits s (some i) (some i) of.fd.toList) (hof : Filled of)
    (hcount : (s.files i).count = s.refs i) (hsmall : (s.files i).count < 2 ^ 24)
    (hhands : HandsOut of → (s.files i).count + 1 < 2 ^ 24) (hzero : ¬ HandsOut of → (s.files i).count = 0) :
    Books limits (update env s i of).1 none none [] := by
  have htree := h.mem_tree
  unfold update
  dsimp only
  apply found_books
  · rw [setFile_files]
    split
    · exact h.setFile _
    · exact h.setFile _
  · rw [setFile_files]
    by_cases herr : of.err = 0
    · rw [if_pos herr]
      by_cases hdir : of.isDir = true
      · have hnot : ¬ HandsOut of := fun hands => by
          rw [hands.2] at hdir
          exact absurd hdir (by simp)
        have hnone := hof.unopened (Or.inr hdir)
        have hcount0 := hzero hnot
        rw [if_neg hnot]
        refine ⟨⟨?_, ?_, ?_, fun _ => hnone, fun _ => iff_of_true rfl htree⟩, Or.inl htree⟩
        · dsimp only
          rw [if_pos hdir]
          exact hcount
        · dsimp only
          rw [if_pos hdir]
          exact hsmall
        · dsimp only
          rw [if_pos hdir]
          exact fun hne => absurd hcount0 hne
      · have hfile : of.isDir = false := by simpa using hdir
        have hands : HandsOut of := ⟨herr, hfile⟩
        have hbound := hhands hands
        have hup : countUp (s.files i).count = (s.files i).count + 1 := Nat.mod_eq_of_lt hbound
        rw [if_pos hands]
        refine ⟨⟨?_, ?_, fun _ => hof.opened herr hfile, ?_, fun _ => iff_of_true rfl htree⟩, Or.inl htree⟩
        · dsimp only
          rw [if_neg hdir, hup, hcount]
          rfl
        · dsimp only
          rw [if_neg hdir, hup]
          exact hbound
        · rintro (hne | hne)
          · exact absurd herr hne
          · exact absurd hne hdir
    · have hnot : ¬ HandsOut of := fun hands => herr hands.1
      have hnone := hof.unopened (Or.inl herr)
      rw [if_neg herr, if_neg hnot]
      exact ⟨⟨hcount, hsmall, fun hne => absurd (hzero hnot) hne, fun _ => hnone, fun h0 => absurd h0 herr⟩, Or.inl htree⟩

theorem failed_none_books (h : Books limits s none none of.fd.toList) :
    Books limits (failed s none of).1 none none [] := by
  rw [← List.append_nil of.fd.toList] at h
  exact h.closeFd

theorem failed_books (h : Books limits s (some i) (some i) ((s.files i).fd.toList ++ of.fd.toList))
    (hok : Counted (s.files i) (i ∈ s.tree) (s.refs i)) : Books limits (failed s (some i) of).1 none none [] := by
  have hdeleted := h.delete
  have hgone : i ∉ s.tree.erase i := h.tree.not_mem_erase
  unfold failed
  dsimp only
  apply Books.closeFd
  rw [List.append_nil]
  split
  · rename_i hzero
    have hclosed := hdeleted.closeFd
    apply hclosed.free
    · rw [closeFd_tree]
      exact hgone
    · rw [closeFd_refs]
      exact hok.count ▸ hzero
  · rename_i hne
    apply Books.giveFile
    · exact hdeleted
    · exact ⟨⟨hok.count, hok.small, hok.used, hok.unopened, fun _ => iff_of_false (by simp) hgone⟩, Or.inr hne⟩

theorem create_books (name : Bytes) (hmax : 0 < limits.max) (h : Books limits s none none of.fd.toList) (hof : Filled of) :
    Books limits (create env limits s name of).1 none none [] := by
  unfold create
  dsimp only
  have hroom : ∃ t, (if s.current ≥ limits.max then expireOld limits env.now 0 s else s) = t ∧
      Books limits t none none of.fd.toList ∧ t.current < limits.max := by
    refine ⟨_, rfl, ?_⟩
    have hle := h.max
    split
    · have hless := expireOld_forced env.now h (by omega)
      exact ⟨(expireLoop_books env.now 3 0 h).1, by omega⟩
    · exact ⟨h, by omega⟩
  obtain ⟨t, ht, hbooks, hcurrent⟩ := hroom
  rw [ht]
  split
  · exact failed_none_books hbooks
  · obtain ⟨hadded, hrefs⟩ := hbooks.add hcurrent
    have hset := hadded.setFile { env.fresh with name := cstr name, key := crc32Long name, uses := 1, count := 0 }
    apply update_books env hset hof
    · rw [setFile_files]
      exact hrefs.symm
    · rw [setFile_files]
      exact Nat.two_pow_pos 24
    · rw [setFile_files]
      intro _
      exact Nat.one_lt_two_pow (by simp)
    · rw [setFile_files]
      intro _
      rfl

theorem replace_books (name : Bytes) (hmax : 0 < limits.max)
    (h : Books limits s (some i) (some i) ((s.files i).fd.toList ++ of.fd.toList)) (hof : Filled of)
    (hok : Counted (s.files i) (i ∈ s.tree) (s.refs i)) : Books limits (replace env limits s i name of).1 none none [] := by
  unfold replace
  dsimp only
  split
  · rename_i hzero
    apply update_books env h.closeFd hof
    · rw [closeFd_files, closeFd_refs]
      exact hok.count
    · rw [closeFd_files]
      exact hok.small
    · rw [closeFd_files, hzero]
      intro _
      exact Nat.one_lt_two_pow (by simp)
    · rw [closeFd_files]
      intro _
      exact hzero
  · rename_i hne
    apply create_books env name hmax _ hof
    have hgone : i ∉ s.tree.erase i := h.tree.not_mem_erase
    apply Books.giveFile
    · exact h.delete
    · exact ⟨⟨hok.count, hok.small, hok.used, hok.unopened, fun _ => iff_of_false (by simp) hgone⟩, Or.inr hne⟩

end Nginx.OpenFileCache
