import Nginx.Core.OpenFileCache.Steps

namespace Nginx.OpenFileCache

variable {limits : Limits} {s s' : State} {i : Nat} {of of' : OpenFileInfo} {ok : Bool} {env : Env}

-- A descriptor that is opened and closed at once
def State.bounce (s : State) : State := { s with opened := s.opened + 1, closed := s.opened :: s.closed }

theorem Books.bounce {away out : Option Nat} {hand : List Nat} (h : Books limits s away out hand) :
    Books limits s.bounce away out hand := by
  have hopened : Books limits { s with opened := s.opened + 1 } away out ((some s.opened).toList ++ hand) := h.openFile
  exact hopened.closeFd

-- What ngx_open_and_stat_file can do
inductive Outcome (env : Env) (s : State) (of : OpenFileInfo) : Bool → OpenFileInfo → State → Prop
  | same (fi : FileInfo) : env.fileInfo = .ok fi → (of.fd ≠ none ∧ of.uniq = fi.uniq ∨ of.fd = none ∧ fi.isDir = true) →
      Outcome env s of true (of.done fi) s
  | lost (of' : OpenFileInfo) (s' : State) : of'.fd = none → s' = s ∨ s' = s.bounce → Outcome env s of false of' s'
  | dir (fi : FileInfo) : fi.isDir = true → Outcome env s of true ({ of with fd := none }.done fi) s.bounce
  | file (fi : FileInfo) (isDirectio : Bool) : fi.isDir = false →
      (of.fd ≠ none → ∃ old, env.fileInfo = .ok old ∧ of.uniq ≠ old.uniq) → env.openFile = none → env.fdInfo = .ok fi →
      Outcome env s of true ({ of with fd := some s.opened, isDirectio }.done fi) { s with opened := s.opened + 1 }

theorem openAndFdInfo_outcome (hchanged : of.fd ≠ none → ∃ old, env.fileInfo = .ok old ∧ of.uniq ≠ old.uniq) :
    Outcome env s of (openAndFdInfo env s of).1 (openAndFdInfo env s of).2.1 (openAndFdInfo env s of).2.2 := by
  unfold openAndFdInfo
  cases hopen : env.openFile with
  | some err => exact .lost _ s rfl (Or.inl rfl)
  | none =>
      cases hinfo : env.fdInfo with
      | error err => exact .lost _ _ rfl (Or.inr rfl)
      | ok fi =>
          dsimp only
          split
          · rename_i hdir
            exact .dir fi hdir
          · rename_i hdir
            exact .file fi _ (by simpa using hdir) hchanged hopen hinfo

theorem openAndStatFile_outcome (env : Env) (s : State) (of : OpenFileInfo) :
    Outcome env s of (openAndStatFile env s of).1 (openAndStatFile env s of).2.1 (openAndStatFile env s of).2.2 := by
  unfold openAndStatFile
  split
  · rename_i hfd
    cases hinfo : env.fileInfo with
    | error err => exact .lost _ s rfl (Or.inl rfl)
    | ok fi =>
        dsimp only
        split
        · rename_i huniq
          exact .same fi hinfo (Or.inl ⟨hfd, huniq⟩)
        · rename_i huniq
          exact openAndFdInfo_outcome (fun _ => ⟨fi, hinfo, huniq⟩)
  · rename_i hfd
    split
    · cases hinfo : env.fileInfo with
      | error err => exact .lost _ s rfl (Or.inl rfl)
      | ok fi =>
          dsimp only
          split
          · rename_i hdir
            exact .same fi hinfo (Or.inr ⟨not_not.mp hfd, hdir⟩)
          · exact openAndFdInfo_outcome (fun hne => absurd hne hfd)
    · exact openAndFdInfo_outcome (fun hne => absurd hne hfd)

-- The descriptor in of is a new one, or there is none.
structure Fresh (env : Env) (s : State) (of : OpenFileInfo) (ok : Bool) (of' : OpenFileInfo) (s' : State) : Prop where
  books : ∀ limits away out hand, Books limits s away out hand → Books limits s' away out (of'.fd.toList ++ hand)
  filled : ok = true ∨ of'.err ≠ 0 → Filled of'
  files : s'.files = s.files
  tree : s'.tree = s.tree
  cleanups : s'.cleanups = s.cleanups
  changed : of.fd ≠ none → ok = true → of'.isDir = false → ∃ old fi, env.fileInfo = .ok old ∧ of.uniq ≠ old.uniq ∧
    env.openFile = none ∧ env.fdInfo = .ok fi ∧ fi.isDir = false ∧ of'.uniq = fi.uniq

theorem Fresh.refs (h : Fresh env s of ok of' s') (i : Nat) : s'.refs i = s.refs i := by
  rw [State.refs, h.cleanups]
  rfl

theorem Outcome.fresh (h : Outcome env s of ok of' s') (herr : of.err = 0) :
    Fresh env s of ok of' s' ∨ ∃ fi, env.fileInfo = .ok fi ∧ of.fd ≠ none ∧ of.uniq = fi.uniq ∧ ok = true ∧
      of'.isDir = fi.isDir ∧ of'.err = of.err ∧ of'.uniq = fi.uniq ∧ of'.fd = of.fd ∧ s' = s := by
  cases h with
  | same fi hinfo hcase =>
      rcases hcase with ⟨hfd, huniq⟩ | ⟨hfd, hdir⟩
      · exact Or.inr ⟨fi, hinfo, hfd, huniq, rfl, rfl, rfl, rfl, rfl, rfl⟩
      · refine Or.inl ⟨?_, fun _ => ⟨?_, fun _ => hfd⟩, rfl, rfl, rfl, fun hne => absurd hfd hne⟩
        · intro limits away out hand hbooks
          rw [OpenFileInfo.done, hfd]
          exact hbooks
        · intro _ hfile
          exact absurd (hdir.symm.trans hfile) (by simp)
  | lost _ _ hfd hstate =>
      refine Or.inl ⟨?_, fun hgood => ⟨?_, fun _ => hfd⟩, ?_, ?_, ?_, fun _ hfalse => absurd hfalse (by simp)⟩
      · intro limits away out hand hbooks
        rw [hfd]
        rcases hstate with rfl | rfl
        · exact hbooks
        · exact hbooks.bounce
      · intro hzero
        rcases hgood with hfalse | hne
        · exact absurd hfalse (by simp)
        · exact absurd hzero hne
      · rcases hstate with rfl | rfl <;> rfl
      · rcases hstate with rfl | rfl <;> rfl
      · rcases hstate with rfl | rfl <;> rfl
  | dir fi hdir =>
      refine Or.inl ⟨?_, fun _ => ⟨?_, fun _ => rfl⟩, rfl, rfl, rfl,
        fun _ _ hfile => absurd (hdir.symm.trans hfile) (by simp)⟩
      · intro limits away out hand hbooks
        exact hbooks.bounce
      · intro _ hfile
        exact absurd (hdir.symm.trans hfile) (by simp)
  | file fi isDirectio hfile hchanged hopen hinfo =>
      refine Or.inl ⟨?_, fun _ => ⟨fun _ _ => by simp [OpenFileInfo.done], ?_⟩, rfl, rfl, rfl, ?_⟩
      · intro limits away out hand hbooks
        exact hbooks.openFile
      · rintro (hne | hdir)
        · exact absurd herr hne
        · exact absurd (hfile.symm.trans hdir) (by simp)
      · intro hfd _ _
        obtain ⟨old, hold, huniq⟩ := hchanged hfd
        exact ⟨old, fi, hold, huniq, hopen, hinfo, hfile, rfl⟩

theorem Books.swap {away out : Option Nat} {a b : List Nat} (h : Books limits s away out (a ++ b)) :
    Books limits s away out (b ++ a) := by
  refine { h with fds := ?_ }
  intro fd
  rw [List.perm_append_comm.count_eq]
  exact h.fds fd

-- A cached file is taken as it is.
def Hit (env : Env) (of : OpenFileInfo) (file : CachedFile) : Prop :=
  (of.uniq = 0 ∨ of.uniq = file.uniq) ∧ env.now - file.created < of.valid

instance (env : Env) (of : OpenFileInfo) (file : CachedFile) : Decidable (Hit env of file) :=
  inferInstanceAs (Decidable (_ ∧ _))

-- The call finds an open file that has room for one more reference where it is handed out, and where the file is retested
-- its inode is not that of a directory, and it does not come back between ngx_file_info and ngx_fd_info.
def Sound (env : Env) (s : State) (name : Bytes) (of : OpenFileInfo) : Prop :=
  env.cleanupAdd = true → ∀ i, lookup s name (crc32Long name) = some i →
    (s.files i).err = 0 → (s.files i).isDir = false → (s.files i).fd ≠ none →
    if Hit env of (s.files i) then (s.files i).count + 1 < 2 ^ 24
    else ∀ fi, env.fileInfo = .ok fi →
      if fi.uniq = (s.files i).uniq then fi.isDir = false ∧ (s.files i).count + 1 < 2 ^ 24
      else ∀ now, env.openFile = none → env.fdInfo = .ok now → now.isDir = false → now.uniq ≠ (s.files i).uniq

theorem Fresh.not_refused (h : Fresh env s of ok of' s') (hgood : ¬ refused ok of' = true) : Filled of' := by
  apply h.filled
  cases ok with
  | true => exact Or.inl rfl
  | false =>
      right
      intro hzero
      exact hgood (by simp [refused, hzero])

theorem openNew_books (name : Bytes) (hmax : 0 < limits.max) (herr : of.err = 0) (hfd : of.fd = none)
    (h : Books limits s none none []) : Books limits (openNew env limits s name of).1 none none [] := by
  have houtcome := openAndStatFile_outcome env s of
  unfold openNew
  generalize openAndStatFile env s of = r at houtcome ⊢
  obtain ⟨ok, of', s'⟩ := r
  rcases houtcome.fresh herr with hfresh | ⟨fi, -, hne, -⟩
  · have hbooks := hfresh.books _ _ _ _ h
    rw [List.append_nil] at hbooks
    dsimp only
    split
    · exact failed_none_books hbooks
    · rename_i hgood
      exact create_books env name hmax hbooks (hfresh.not_refused hgood)
  · exact absurd hfd hne

-- The file is away from the queue and out of the books, and its descriptor is in hand.
structure Away (limits : Limits) (s : State) (i : Nat) : Prop where
  books : Books limits s (some i) (some i) ((s.files i).fd.toList)
  counted : Counted (s.files i) (i ∈ s.tree) (s.refs i)

-- A file without a descriptor, which nobody refers to, is filled anew.
theorem Away.refill (h : Away limits s i) (hfd : (s.files i).fd = none) (hfresh : Fresh env s of ok of' s') :
    Books limits (failed s' (some i) of').1 none none [] ∧
      (¬ refused ok of' = true → Books limits (update env s' i of').1 none none []) := by
  have hzero : (s.files i).count = 0 := by
    by_contra hne
    exact h.counted.used hne hfd
  have hbooks := hfresh.books _ _ _ _ h.books
  rw [hfd, Option.toList_none, List.append_nil] at hbooks
  have hcounted : Counted (s'.files i) (i ∈ s'.tree) (s'.refs i) := by
    rw [hfresh.files, hfresh.tree, hfresh.refs]
    exact h.counted
  constructor
  · apply failed_books
    · rw [hfresh.files, hfd]
      exact hbooks
    · exact hcounted
  · intro hgood
    apply update_books env hbooks (hfresh.not_refused hgood) hcounted.count hcounted.small
    · rw [hfresh.files, hzero]
      intro _
      exact Nat.one_lt_two_pow (by simp)
    · rw [hfresh.files]
      exact fun _ => hzero

theorem reopen_books (h : Away limits s i) (herr : of.err = 0) (hof : of.fd = none) (hfd : (s.files i).fd = none) :
    Books limits (reopen env s i of).1 none none [] := by
  have houtcome := openAndStatFile_outcome env s of
  unfold reopen
  generalize openAndStatFile env s of = r at houtcome ⊢
  obtain ⟨ok, of', s'⟩ := r
  rcases houtcome.fresh herr with hfresh | ⟨fi, -, hne, -⟩
  · obtain ⟨hfailed, hupdated⟩ := h.refill hfd hfresh
    dsimp only
    split
    · exact hfailed
    · rename_i hgood
      exact hupdated hgood
  · exact absurd hof hne

theorem hit_books (h : Away limits s i) (herr : of.err = 0)
    (hroom : (s.files i).err = 0 → (s.files i).isDir = false → (s.files i).fd ≠ none ∧ (s.files i).count + 1 < 2 ^ 24) :
    Books limits (hit env s i of).1 none none [] := by
  have htree := h.books.mem_tree
  have hok := h.counted
  unfold hit
  dsimp only
  by_cases hfile : (s.files i).err = 0
  · rw [if_pos hfile]
    cases hdir : (s.files i).isDir with
    | true =>
        apply found_books env h.books
        have hnot : ¬ (HandsOut { of with
            fd := (s.files i).fd, uniq := (s.files i).uniq, mtime := (s.files i).mtime, size := (s.files i).size
            isDir := true, isFile := (s.files i).isFile, isLink := (s.files i).isLink
            isExec := (s.files i).isExec, isDirectio := (s.files i).isDirectio }) := fun hands => by
          exact absurd hands.2 (by simp)
        rw [if_neg hnot]
        exact ⟨hok, Or.inl htree⟩
    | false =>
        obtain ⟨hfd, hbound⟩ := hroom hfile hdir
        have hup : countUp (s.files i).count = (s.files i).count + 1 := Nat.mod_eq_of_lt hbound
        apply found_books
        · rw [if_neg Bool.false_ne_true, setFile_files]
          exact h.books.setFile _
        · rw [if_neg Bool.false_ne_true, setFile_files, if_pos ⟨herr, rfl⟩]
          refine ⟨⟨?_, ?_, fun _ => hfd, ?_, hok.close⟩, Or.inl htree⟩
          · show countUp (s.files i).count = s.refs i + 1
            rw [hup, hok.count]
          · show countUp (s.files i).count < 2 ^ 24
            rw [hup]
            exact hbound
          · rintro (hne | hno)
            · exact absurd hfile hne
            · exact absurd hno (by simp)
  · rw [if_neg hfile]
    apply found_books env h.books
    rw [if_neg (fun hands => hfile hands.1)]
    exact ⟨hok, Or.inl htree⟩

theorem retest_books (name : Bytes) (hmax : 0 < limits.max) (h : Away limits s i) (herr : of.err = 0)
    (hopen : ¬ ((s.files i).fd = none ∧ (s.files i).err = 0 ∧ (s.files i).isDir = false))
    (hsound : (s.files i).err = 0 → (s.files i).isDir = false → ∀ fi, env.fileInfo = .ok fi →
      if fi.uniq = (s.files i).uniq then fi.isDir = false ∧ (s.files i).count + 1 < 2 ^ 24
      else ∀ now, env.openFile = none → env.fdInfo = .ok now → now.isDir = false → now.uniq ≠ (s.files i).uniq) :
    Books limits (retest env limits s i name of).1 none none [] := by
  have houtcome := openAndStatFile_outcome env s
    { of with testDir := of.testDir || (s.files i).isDir, fd := (s.files i).fd, uniq := (s.files i).uniq }
  unfold retest
  dsimp only
  generalize openAndStatFile env s _ = r at houtcome ⊢
  obtain ⟨ok, of', s'⟩ := r
  dsimp only at houtcome ⊢
  by_cases hclosed : (s.files i).isDir = true ∨ (s.files i).err ≠ 0
  · have hfd : (s.files i).fd = none := h.counted.unopened hclosed.symm
    rcases houtcome.fresh herr with hfresh | ⟨fi, -, hne, -⟩
    · obtain ⟨hfailed, hupdated⟩ := h.refill hfd hfresh
      rw [if_pos hclosed, if_pos hclosed]
      split
      · exact hfailed
      · rename_i hgood
        split
        · exact hupdated hgood
        · split <;> exact hupdated hgood
    · exact absurd hfd hne
  · have hplain : (s.files i).err = 0 ∧ (s.files i).isDir = false := by
      rw [not_or, not_not, Bool.not_eq_true] at hclosed
      exact hclosed.symm
    have hfd : (s.files i).fd ≠ none := fun hnone => hopen ⟨hnone, hplain⟩
    rw [if_neg hclosed, if_neg hclosed]
    rcases houtcome.fresh herr with hfresh | ⟨fi, hinfo, -, huniq, rfl, hsame, hzero, hnow, hheld, rfl⟩
    · have hcounted : Counted (s'.files i) (i ∈ s'.tree) (s'.refs i) := by
        rw [hfresh.files, hfresh.tree, hfresh.refs]
        exact h.counted
      have hbooks := (hfresh.books _ _ _ _ h.books).swap
      rw [← hfresh.files] at hbooks
      split
      · exact failed_books hbooks hcounted
      · rename_i hgood
        have hreplaced := replace_books env name hmax hbooks (hfresh.not_refused hgood) hcounted
        split
        · exact hreplaced
        · split
          · rename_i hfile hzero
            split
            · rename_i hsame
              have hok : ok = true := by
                cases ok with
                | true => rfl
                | false => exact absurd (by simp [refused, hzero]) hgood
              obtain ⟨old, now, hold, hother, hopened, hnow, hnodir, huniq⟩ :=
                hfresh.changed hfd hok (by simpa using hfile)
              have hcase := hsound hplain.1 hplain.2 old hold
              rw [if_neg (fun heq => hother heq.symm)] at hcase
              exact absurd (huniq ▸ hsame) (hcase now hopened hnow hnodir)
            · exact hreplaced
          · exact hreplaced
    · have hcase := hsound hplain.1 hplain.2 fi hinfo
      dsimp only at huniq
      rw [if_pos huniq.symm] at hcase
      obtain ⟨hfile, hbound⟩ := hcase
      rw [hfile] at hsame
      dsimp only at huniq hzero hheld
      rw [herr] at hzero
      rw [if_neg (by simp [refused]), if_neg (by rw [hsame]; exact Bool.false_ne_true), if_pos hzero,
        if_pos (hnow.trans huniq.symm)]
      apply update_books
      · dsimp only
        rw [hheld]
        exact h.books
      · refine ⟨fun _ _ => ?_, ?_⟩
        · dsimp only
          rw [hheld]
          exact hfd
        · rintro (hne | hdir)
          · exact absurd hzero hne
          · exact absurd (hsame.symm.trans hdir) (by simp)
      · exact h.counted.count
      · exact h.counted.small
      · exact fun _ => hbound
      · intro hnot
        exact absurd ⟨hzero, hsame⟩ hnot

theorem openCachedFile_books (name : Bytes) (hmax : 0 < limits.max) (hsound : Sound env s name of)
    (h : Books limits s none none []) : Books limits (openCachedFile env limits s name of).1 none none [] := by
  unfold openCachedFile
  dsimp only
  split
  · exact h
  · rename_i hadd
    have hcleanup : env.cleanupAdd = true := by simpa using hadd
    cases hlookup : lookup s name (crc32Long name) with
    | none => exact openNew_books name hmax rfl rfl h
    | some i =>
        have htree : i ∈ s.tree := List.mem_of_find?_eq_some hlookup
        obtain ⟨hok, htaken⟩ := h.take (h.cached i htree)
        rw [List.append_nil] at htaken
        have hfile : ((s.setFile i { s.files i with uses := ((s.files i).uses + 1) % 2 ^ 32 }).unqueue i).files i =
            { s.files i with uses := ((s.files i).uses + 1) % 2 ^ 32 } := setFile_files s i _
        have haway : Away limits ((s.setFile i { s.files i with uses := ((s.files i).uses + 1) % 2 ^ 32 }).unqueue i) i := by
          constructor
          · rw [hfile]
            exact (htaken.setFile _).unqueue htree
          · rw [hfile]
            exact ⟨hok.count, hok.small, hok.used, hok.unopened, hok.close⟩
        have hcall := hsound hcleanup i hlookup
        dsimp only
        split
        · rename_i hunused
          exact reopen_books haway rfl rfl (by rw [hfile]; exact hunused.1)
        · rename_i hunused
          have hopened : (s.files i).err = 0 → (s.files i).isDir = false → (s.files i).fd ≠ none :=
            fun herr hdir hnone => hunused ⟨hnone, herr, hdir⟩
          split
          · rename_i hhit
            apply hit_books haway rfl
            rw [hfile]
            intro herr hdir
            have hroom := hcall herr hdir (hopened herr hdir)
            rw [if_pos (show Hit env of (s.files i) from hhit)] at hroom
            exact ⟨hopened herr hdir, hroom⟩
          · rename_i hhit
            apply retest_books name hmax haway rfl
            · rw [hfile]
              exact hunused
            · rw [hfile]
              intro herr hdir
              have hretest := hcall herr hdir (hopened herr hdir)
              rw [if_neg (show ¬ Hit env of (s.files i) from hhit)] at hretest
              exact hretest

-- The states that are reached by calls, cleanups and expirations whose calls meet the condition
inductive Reached (limits : Limits) : State → Prop
  | init (files : Nat → CachedFile) : Reached limits (.initial files)
  | openFile {s : State} (env : Env) (name : Bytes) (of : OpenFileInfo) : Reached limits s → Sound env s name of →
      Reached limits (step limits s (.openFile env name of))
  | cleanup {s : State} (now : Int) (c : Cleanup) : Reached limits s → Reached limits (step limits s (.cleanup now c))
  | expire {s : State} (now : Int) (n : Nat) : Reached limits s → Reached limits (step limits s (.expire now n))

theorem Reached.books {s : State} (hmax : 0 < limits.max) (h : Reached limits s) : Books limits s none none [] := by
  induction h with
  | init files =>
      refine ⟨?_, ?_, ?_, ?_, ?_, ?_, ?_, ?_, ?_, ?_, ?_⟩ <;> simp [State.initial, State.holders]
  | openFile env name of hreached hsound ih => exact openCachedFile_books name hmax hsound ih
  | @cleanup s now c hreached ih =>
      rw [step]
      split
      · rename_i hc
        exact fileCleanup_books now ih hc
      · exact ih
  | expire now n hreached ih => exact (expireLoop_books now (3 - n) n ih).1

-- count is the number of cleanups that are outstanding, each descriptor is held by one file or was closed once, a file that
-- is referred to has its descriptor, no file is left without a reference or a place in the cache, and the tree, the queue and
-- current are of the same files.
structure Consistent (limits : Limits) (s : State) : Prop where
  count : ∀ i ∈ s.live, (s.files i).count = s.cleanups.countP fun c => c.file == i
  referred : ∀ c ∈ s.cleanups, c.file ∈ s.live
  once : ∀ fd < s.opened, s.closed.count fd + s.live.countP (fun i => (s.files i).fd == some fd) = 1
  opened : ∀ i ∈ s.live, ∀ fd, (s.files i).fd = some fd → fd < s.opened
  readable : ∀ i ∈ s.live, 0 < (s.files i).count → ∃ fd, (s.files i).fd = some fd ∧ fd ∉ s.closed
  held : ∀ i ∈ s.live, i ∈ s.tree ∨ 0 < (s.files i).count
  tree : s.tree.Nodup ∧ ∀ i ∈ s.tree, i ∈ s.live
  queue : s.queue.Perm s.tree
  current : s.current = s.tree.length ∧ s.current ≤ limits.max

theorem Books.consistent (h : Books limits s none none []) : Consistent limits s := by
  have hfds : ∀ fd, s.closed.count fd + s.live.countP (fun i => (s.files i).fd == some fd) = if fd < s.opened then 1 else 0 := by
    intro fd
    have hfd := h.fds fd
    have hsame : s.holders none fd = s.live.countP (fun i => (s.files i).fd == some fd) := by
      apply List.countP_congr
      intro i _
      simp
    rw [hsame] at hfd
    exact hfd
  have hholds : ∀ i ∈ s.live, ∀ fd, (s.files i).fd = some fd →
      0 < s.live.countP (fun i => (s.files i).fd == some fd) := by
    intro i hi fd hfd
    exact List.countP_pos_iff.mpr ⟨i, hi, by rw [hfd]; exact beq_self_eq_true _⟩
  refine ⟨?_, h.refs, ?_, ?_, ?_, ?_, ⟨h.tree, h.cached⟩, h.queue, ⟨h.current, h.max⟩⟩
  · intro i hi
    exact (h.files i hi (by simp)).count
  · intro fd hfd
    rw [hfds fd, if_pos hfd]
  · intro i hi fd hfd
    by_contra hle
    have hsum := hfds fd
    rw [if_neg hle] at hsum
    have hpos := hholds i hi fd hfd
    omega
  · intro i hi hcount
    obtain ⟨fd, hfd⟩ := Option.ne_none_iff_exists'.mp ((h.files i hi (by simp)).used (by omega))
    refine ⟨fd, hfd, ?_⟩
    intro hclosed
    have hsum := hfds fd
    have hpos := hholds i hi fd hfd
    have hcount := List.count_pos_iff.mpr hclosed
    split at hsum <;> omega
  · intro i hi
    rcases (h.files i hi (by simp)).held with htree | hne
    · exact Or.inl htree
    · exact Or.inr (Nat.pos_of_ne_zero hne)

theorem reached_consistent (limits : Limits) (hmax : 0 < limits.max) (s : State) (h : Reached limits s) :
    Consistent limits s := (h.books hmax).consistent

def plainInfo : FileInfo := ⟨1, 0, 10, 0, false, true, false, false⟩

def blankFile : CachedFile := ⟨0, [], 0, 0, none, 0, 0, 0, 0, 0, 0, false, false, false, false, false, false⟩

-- A system with one file that is there
def plainEnv : Env := ⟨0, .ok plainInfo, none, .ok plainInfo, true, true, true, blankFile⟩

theorem reached_consistent_one :
    Consistent ⟨1000, 60⟩ (step ⟨1000, 60⟩ (step ⟨1000, 60⟩ (.initial fun _ => blankFile)
      (.openFile plainEnv (ngxString "f") { valid := 60, minUses := 1 })) (.cleanup 5 ⟨0, 1⟩)) :=
  reached_consistent ⟨1000, 60⟩ (by decide) _
    (.cleanup 5 ⟨0, 1⟩ (.openFile plainEnv _ _ (.init _) (fun _ _ hlookup => absurd hlookup (by simp [lookup, State.initial]))))

-- A file becomes a directory with the same inode number, and then it is removed: its descriptor is closed twice.
def inodeKept : List Event :=
  [.openFile plainEnv (ngxString "f") { valid := 60, minUses := 1 },
    .cleanup 5 ⟨0, 1⟩,
    .openFile { plainEnv with now := 100, fileInfo := .ok { plainInfo with isDir := true, isFile := false } } (ngxString "f")
      { valid := 60, minUses := 1 },
    .openFile { plainEnv with now := 200, fileInfo := .error 2 } (ngxString "f") { valid := 60, minUses := 1 }]

theorem inodeKept_closed :
    (inodeKept.foldl (step ⟨1000, 60⟩) (.initial fun _ => blankFile)).closed = [0, 0] ∧
      (inodeKept.foldl (step ⟨1000, 60⟩) (.initial fun _ => blankFile)).opened = 1 := by
  decide

theorem closed_twice :
    ¬ ∀ (limits : Limits) (files : Nat → CachedFile) (events : List Event), 0 < limits.max →
      Consistent limits (events.foldl (step limits) (.initial files)) := by
  intro hall
  have honce := (hall ⟨1000, 60⟩ (fun _ => blankFile) inodeKept (by decide)).once 0
  obtain ⟨hclosed, hopened⟩ := inodeKept_closed
  rw [hclosed, hopened] at honce
  have hsum := honce (by decide)
  rw [show [0, 0].count 0 = 2 from rfl] at hsum
  omega

end Nginx.OpenFileCache
