import Nginx.Http.Mp4.Bounds

namespace Nginx.Mp4

open ByteMemory

-- The data up to an offset is in the buffer.
def Loaded (stop : Nat) (s : St) : Prop := s.bufferPos + (stop - s.offset) ≤ s.bufferEnd

-- Nothing is recorded, and the next read fills the buffer with the data up to an offset.
def Pending (stop : Nat) (s : St) : Prop :=
  s.Fresh ∧ s.bufferEnd < s.bufferPos + 4 ∧ stop - s.offset ≤ s.bufferSize

-- Where the bufs may end: a read outside of moov does not touch what lies before buffer_start.
def bufsEnd (inside : Option Nat) (f : File) : Nat :=
  match inside with
  | none => f.bufferStart
  | some _ => f.bufferPos

-- What holds between two atoms, outside of moov or inside of the one that ends at an offset
structure Sound (inside : Option Nat) (s : St) : Prop where
  contained : Contained s.trace
  offset_le : s.offset ≤ s.fileEnd
  fileEnd_lt : s.fileEnd < 2 ^ 63
  fits : s.bufferPos + (s.fileEnd - s.offset) < 2 ^ 64
  noBuffer : s.buffer = none → s.bufferPos = 0 ∧ s.bufferEnd = 0 ∧ s.Fresh
  buffer : s.buffer ≠ none → s.bufferStart ≤ s.bufferPos ∧ Synced s.trace s.toFile
  within : Within (bufsEnd inside s.toFile) s.recorded
  moov : ∀ stop, inside = some stop → s.offset ≤ stop ∧ stop ≤ s.fileEnd ∧ (Loaded stop s ∨ Pending stop s)

-- The buffer is the same, and what is left of it moves with the offset.
structure Frame (s s' : St) : Prop where
  buffer : s'.buffer = s.buffer
  bufferStart : s'.bufferStart = s.bufferStart
  bufferEnd : s'.bufferEnd = s.bufferEnd
  lastFill : lastFill s'.trace = lastFill s.trace
  moved : s'.bufferPos + s.offset = s.bufferPos + s'.offset

theorem Frame.refl (s : St) : Frame s s := ⟨rfl, rfl, rfl, rfl, rfl⟩

theorem Frame.trans {s₁ s₂ s₃ : St} (h₁ : Frame s₁ s₂) (h₂ : Frame s₂ s₃) : Frame s₁ s₃ where
  buffer := h₂.buffer.trans h₁.buffer
  bufferStart := h₂.bufferStart.trans h₁.bufferStart
  bufferEnd := h₂.bufferEnd.trans h₁.bufferEnd
  lastFill := h₂.lastFill.trans h₁.lastFill
  moved := by
    have hone := h₁.moved
    have htwo := h₂.moved
    omega

-- From one state between two atoms to a later one
structure Went (inside : Option Nat) (s s' : St) : Prop where
  sound : Sound inside s'
  offset : s.offset ≤ s'.offset
  fileEnd : s'.fileEnd = s.fileEnd
  trak : s.trak.length ≤ s'.trak.length
  mvhd : s'.mvhdAtom = none → s.mvhdAtom = none
  frame : inside ≠ none → ¬s.Fresh → Frame s s'

theorem Went.notFresh {inside : Option Nat} {s s' : St} (h : Went inside s s') (hfresh : ¬s.Fresh) : ¬s'.Fresh := by
  rintro ⟨hmvhd, htrak⟩
  refine hfresh ⟨h.mvhd hmvhd, List.eq_nil_of_length_eq_zero ?_⟩
  have hlen := h.trak
  rw [htrak, List.length_nil] at hlen
  omega

theorem Went.trans {inside : Option Nat} {s₁ s₂ s₃ : St} (h₁ : Went inside s₁ s₂) (h₂ : Went inside s₂ s₃) :
    Went inside s₁ s₃ where
  sound := h₂.sound
  offset := Nat.le_trans h₁.offset h₂.offset
  fileEnd := h₂.fileEnd.trans h₁.fileEnd
  trak := Nat.le_trans h₁.trak h₂.trak
  mvhd := fun h => h₁.mvhd (h₂.mvhd h)
  frame := fun hin hfresh => (h₁.frame hin hfresh).trans (h₂.frame hin (h₁.notFresh hfresh))

theorem Went.refl {inside : Option Nat} {s : St} (h : Sound inside s) : Went inside s s :=
  ⟨h, Nat.le_refl _, rfl, Nat.le_refl _, id, fun _ _ => .refl s⟩

theorem synced_of_frame (s s' : St) (hlast : lastFill s'.trace = lastFill s.trace)
    (hmoved : s'.bufferPos + s.offset = s.bufferPos + s'.offset) (h : Synced s.trace s.toFile) :
    Synced s'.trace s'.toFile := by
  unfold Synced at h ⊢
  rw [hlast]
  cases hfill : lastFill s.trace with
  | none => rw [hfill] at h; exact h
  | some place =>
    rw [hfill] at h
    dsimp only at h ⊢
    omega

-- The bytes that have been passed over lie in the file, and inside moov in the buffer.
theorem Sound.moves {inside : Option Nat} {n : Nat} {s s' : St} (h : Sound inside s) (hm : Moves n s s')
    (hfile : s.offset + n ≤ s.fileEnd)
    (hin : ∀ stop, inside = some stop → Loaded stop s ∧ s.offset + n ≤ stop) (hbuffer : s.buffer ≠ none)
    (hwithin : Within (bufsEnd inside s'.toFile) s'.recorded) :
    Went inside s s' ∧ s'.offset = s.offset + n ∧ s'.bufferPos = s.bufferPos + n ∧
      ∀ stop, inside = some stop → Loaded stop s' := by
  have hfits := h.fits
  have hlt := h.fileEnd_lt
  have hoffset : s'.offset = s.offset + n := by rw [hm.offset, ptr_eq (by omega)]
  have hpos : s'.bufferPos = s.bufferPos + n := by rw [hm.bufferPos, ptr_eq (by omega)]
  have hend := hm.fileEnd
  have hloaded : ∀ stop, inside = some stop → Loaded stop s' := by
    intro stop hstop
    obtain ⟨hld, hle⟩ := hin stop hstop
    unfold Loaded at hld ⊢
    rw [hm.bufferEnd]
    omega
  have hframe : Frame s s' :=
    ⟨hm.buffer, hm.bufferStart, hm.bufferEnd, by rw [hm.trace], by omega⟩
  refine ⟨⟨?_, by omega, hend, hm.trak, hm.mvhd, fun _ _ => hframe⟩, hoffset, hpos, hloaded⟩
  constructor
  · rw [hm.trace]
    exact h.contained
  · omega
  · omega
  · omega
  · intro hnone
    exact absurd (hm.buffer.symm.trans hnone) hbuffer
  · intro _
    obtain ⟨hstart, hsync⟩ := h.buffer hbuffer
    exact ⟨by rw [hm.bufferStart]; omega, synced_of_frame _ _ hframe.lastFill hframe.moved hsync⟩
  · exact hwithin
  · intro stop hstop
    obtain ⟨_, hle⟩ := hin stop hstop
    have hmoov := h.moov stop hstop
    exact ⟨by omega, by omega, .inl (hloaded stop hstop)⟩

variable (env : Env) (conf : Conf)

-- What a run has met holds of each part of it.
def AllMeet (s : St) : Prop := ∀ e ∈ s.trace, e.Meets conf

theorem AllMeet.mono {s s' : St} (h : AllMeet conf s') (hgrow : s.trace <:+ s'.trace) : AllMeet conf s :=
  fun e he => h e (hgrow.subset he)

theorem fill_grows (s : St) : s.trace <:+ (s.fill env).2.trace := by
  unfold St.fill
  split
  · exact List.suffix_rfl
  · dsimp only
    split
    · exact List.suffix_cons _ _
    · exact List.suffix_cons _ _

theorem refill_grows (s : St) (size : Nat) : s.trace <:+ (refill env size s).2.trace := by
  unfold refill
  split
  · exact List.suffix_rfl
  split
  · exact fill_grows env s
  split
  · exact List.suffix_rfl
  · rename_i p _
    exact fill_grows env { s with buffer := some p.1, bufferStart := p.1, allocs := s.allocs + 1 }

theorem read_grows (s : St) (size : Nat) : s.trace <:+ (read env s size).2.trace := by
  unfold read
  split
  · exact List.suffix_rfl
  · exact refill_grows env { s with bufferSize := s.sizeLeft } size

theorem log_grows (s : St) (e : Event) : s.trace <:+ (s.log e).trace := List.suffix_cons e s.trace

theorem readFor_grows (table : Table) (s : St) (size : Nat) : s.trace <:+ (readFor env table s size).2.trace :=
  (log_grows s _).trans (read_grows env _ size)

theorem checkAtom_grows (table : Table) (stop atomSize headerSize : Nat) (s : St) :
    s.trace <:+ (checkAtom env table stop atomSize headerSize s).2.trace := by
  have hread := readFor_grows env table s 8
  unfold checkAtom
  split
  · rename_i s' hs'
    rw [hs'] at hread
    split
    · exact hread
    · exact hread
  · rename_i s' _ hs'
    rw [hs'] at hread
    exact hread

theorem readHeader_grows (table : Table) (stop : Nat) (s : St) :
    s.trace <:+ (readHeader env table stop s).2.trace := by
  have hread := readFor_grows env table s 4
  unfold readHeader
  split
  · rename_i s₁ hs₁
    rw [hs₁] at hread
    dsimp only
    split
    · exact hread
    split
    · split
      · have hlong := readFor_grows env table s₁ 16
        split
        · rename_i s₂ hs₂
          rw [hs₂] at hlong
          exact hread.trans (hlong.trans ((log_grows s₂ _).trans (checkAtom_grows env table stop _ 16 _)))
        · rename_i s₂ _ hs₂
          rw [hs₂] at hlong
          exact hread.trans hlong
      · exact hread
    · exact hread.trans (checkAtom_grows env table stop _ 8 _)
  · rename_i s₁ _ hs₁
    rw [hs₁] at hread
    exact hread

-- Bytes of the file are put into the buffer where nothing is recorded.
theorem fill_spec (inside : Option Nat) (s : St) (size : Nat) (hcontained : Contained s.trace)
    (hoffset : s.offset ≤ s.fileEnd) (hend : s.fileEnd < 2 ^ 63)
    (hfits : s.bufferStart + (s.fileEnd - s.offset) < 2 ^ 64) (hbuffer : s.buffer ≠ none)
    (hwithin : Within s.bufferStart s.recorded) (hsize : size ≤ s.bufferSize)
    (hmoov : ∀ stop, inside = some stop → s.offset ≤ stop ∧ stop ≤ s.fileEnd ∧ stop - s.offset ≤ s.bufferSize) :
    Contained (s.fill env).2.trace ∧
      ((s.fill env).1 = .ok →
        Sound inside (s.fill env).2 ∧ (s.fill env).2.bufferPos + size ≤ (s.fill env).2.bufferEnd ∧
          (s.fill env).2.offset = s.offset ∧ (s.fill env).2.fileEnd = s.fileEnd ∧
          (s.fill env).2.trak = s.trak ∧ (s.fill env).2.mvhdAtom = s.mvhdAtom) := by
  have hlogged : ∀ n, Contained (Event.fill s.toFile s.bufferStart s.offset n :: s.trace) :=
    fun n => ⟨fun b hb => Buf.apart_of_le n (hwithin b hb), hcontained⟩
  unfold St.fill
  split
  · exact ⟨hcontained, nofun⟩
  · dsimp only
    split
    · exact ⟨hlogged _, nofun⟩
    · refine ⟨hlogged _, fun _ => ⟨?_, Nat.add_le_add_left hsize _, rfl, rfl, rfl, rfl⟩⟩
      constructor
      · exact hlogged _
      · exact hoffset
      · exact hend
      · exact hfits
      · exact fun hnone => absurd hnone hbuffer
      · exact fun _ => ⟨Nat.le_refl _, Nat.add_comm _ _⟩
      · cases inside with
        | none => exact hwithin
        | some _ => exact hwithin
      · intro stop hstop
        obtain ⟨hle, hfile, hload⟩ := hmoov stop hstop
        exact ⟨hle, hfile, .inl (Nat.add_le_add_left hload _)⟩

-- The state is as before when the buffer is filled: its size has been compared with what is left of the file.
theorem refill_spec (inside : Option Nat) {s : St} {size : Nat} (h : Sound inside s)
    (hfresh : ∀ stop, inside = some stop → s.Fresh)
    (hmoov : ∀ stop, inside = some stop → size ≤ s.bufferSize → stop - s.offset ≤ s.bufferSize) :
    Contained (refill env size s).2.trace ∧
      ((refill env size s).1 = .ok →
        Went inside s (refill env size s).2 ∧ (refill env size s).2.offset = s.offset ∧
          (refill env size s).2.bufferPos + size ≤ (refill env size s).2.bufferEnd) := by
  have hback : ∀ {s₁ : St}, s₁.offset = s.offset → s₁.fileEnd = s.fileEnd → s₁.trak = s.trak →
      s₁.mvhdAtom = s.mvhdAtom → Sound inside s₁ → Went inside s s₁ := by
    intro s₁ hoffset hend htrak hmvhd hsound
    refine ⟨hsound, by omega, hend, Nat.le_of_eq (by rw [htrak]), fun hn => by rw [← hmvhd]; exact hn, fun hin hnot => ?_⟩
    obtain ⟨stop, hstop⟩ := Option.ne_none_iff_exists'.mp hin
    exact absurd (hfresh stop hstop) hnot
  have hend := h.fileEnd_lt
  unfold refill
  split
  · exact ⟨h.contained, nofun⟩
  rename_i hsize
  have hmoov' : ∀ stop, inside = some stop → s.offset ≤ stop ∧ stop ≤ s.fileEnd ∧ stop - s.offset ≤ s.bufferSize := by
    intro stop hstop
    obtain ⟨hle, hfile, _⟩ := h.moov stop hstop
    exact ⟨hle, hfile, hmoov stop hstop (by omega)⟩
  split
  · rename_i p hp
    have hbuf : s.buffer ≠ none := by simp [hp]
    obtain ⟨hstart, _⟩ := h.buffer hbuf
    have hfits := h.fits
    have hwithin : Within s.bufferStart s.recorded := by
      cases hinside : inside with
      | none =>
        have hw := h.within
        rw [hinside] at hw
        exact hw
      | some stop => exact (hfresh stop hinside).within _
    obtain ⟨hc, hok⟩ := fill_spec env inside s size h.contained h.offset_le hend (by omega) hbuf hwithin (by omega) hmoov'
    refine ⟨hc, fun hrc => ?_⟩
    obtain ⟨hsound, hin, hoffset, hend, htrak, hmvhd⟩ := hok hrc
    exact ⟨hback hoffset hend htrak hmvhd hsound, hoffset, hin⟩
  · rename_i hnone
    obtain ⟨_, _, hnothing⟩ := h.noBuffer hnone
    split
    · exact ⟨h.contained, nofun⟩
    rename_i p _
    have hp := p.2
    obtain ⟨hc, hok⟩ := fill_spec env inside
      { s with buffer := some p.1, bufferStart := p.1, allocs := s.allocs + 1 } size h.contained
      h.offset_le hend (by show p.1 + (s.fileEnd - s.offset) < _; omega) nofun (hnothing.within _) (by show size ≤ s.bufferSize; omega)
      hmoov'
    refine ⟨hc, fun hrc => ?_⟩
    obtain ⟨hsound, hin, hoffset, hend, htrak, hmvhd⟩ := hok hrc
    exact ⟨hback hoffset hend htrak hmvhd hsound, hoffset, hin⟩

theorem sizeLeft_cases (f : File) : f.sizeLeft = f.fileEnd - f.offset ∨ f.sizeLeft = f.bufferSize := by
  unfold File.sizeLeft
  split
  · exact .inl rfl
  · exact .inr rfl

theorem Sound.log {inside : Option Nat} {s : St} {e : Event} (h : Sound inside s) (he : e.Contained s.trace)
    (hfill : lastFill (e :: s.trace) = lastFill s.trace) : Sound inside (s.log e) where
  contained := ⟨he, h.contained⟩
  offset_le := h.offset_le
  fileEnd_lt := h.fileEnd_lt
  fits := h.fits
  noBuffer := h.noBuffer
  buffer := fun hbuf => ⟨(h.buffer hbuf).1, synced_of_frame s (s.log e) hfill rfl (h.buffer hbuf).2⟩
  within := h.within
  moov := h.moov

theorem Sound.resize {inside : Option Nat} {s : St} {size : Nat} (h : Sound inside s)
    (hsize : ∀ stop, inside = some stop → stop - s.offset ≤ s.bufferSize → stop - s.offset ≤ size) :
    Sound inside { s with bufferSize := size } where
  contained := h.contained
  offset_le := h.offset_le
  fileEnd_lt := h.fileEnd_lt
  fits := h.fits
  noBuffer := h.noBuffer
  buffer := h.buffer
  within := h.within
  moov := fun stop hstop =>
    ⟨(h.moov stop hstop).1, (h.moov stop hstop).2.1,
      (h.moov stop hstop).2.2.imp id fun hp => ⟨hp.1, hp.2.1, hsize stop hstop hp.2.2⟩⟩

theorem refill_resized_spec (inside : Option Nat) {s : St} {size left : Nat} (h : Sound inside s)
    (hfresh : ∀ stop, inside = some stop → s.Fresh) (hmiss : ¬s.bufferPos + size ≤ s.bufferEnd)
    (hcut : left = s.fileEnd - s.offset ∨ left = s.bufferSize) :
    Contained (refill env size { s with bufferSize := left }).2.trace ∧
      ((refill env size { s with bufferSize := left }).1 = .ok →
        Went inside s (refill env size { s with bufferSize := left }).2 ∧
          (refill env size { s with bufferSize := left }).2.offset = s.offset ∧
          (refill env size { s with bufferSize := left }).2.bufferPos + size ≤
            (refill env size { s with bufferSize := left }).2.bufferEnd) := by
  have hfile : ∀ stop, inside = some stop → stop ≤ s.fileEnd := fun stop hstop => (h.moov stop hstop).2.1
  have hsound : Sound inside { s with bufferSize := left } := by
    refine h.resize fun stop hstop hwhole => ?_
    have hle := hfile stop hstop
    omega
  obtain ⟨hc, hok⟩ := refill_spec env inside hsound hfresh (by
    intro stop hstop (hbig : size ≤ left)
    show stop - s.offset ≤ left
    obtain ⟨_, hle, hloaded | hpending⟩ := h.moov stop hstop
    · unfold Loaded at hloaded
      omega
    · have hwhole := hpending.2.2
      omega)
  refine ⟨hc, fun hrc => ?_⟩
  obtain ⟨hwent, hplace⟩ := hok hrc
  refine ⟨⟨hwent.sound, hwent.offset, hwent.fileEnd, hwent.trak, hwent.mvhd, fun hin hnot => ?_⟩, hplace⟩
  obtain ⟨stop, hstop⟩ := Option.ne_none_iff_exists'.mp hin
  exact absurd (hfresh stop hstop) hnot

theorem read_spec (inside : Option Nat) {s : St} (size : Nat) (h : Sound inside s)
    (hfresh : ∀ stop, inside = some stop → s.Fresh ∨ s.bufferPos + size ≤ s.bufferEnd) :
    Contained (read env s size).2.trace ∧
      ((read env s size).1 = .ok →
        Went inside s (read env s size).2 ∧ (read env s size).2.offset = s.offset ∧
          (read env s size).2.bufferPos + size ≤ (read env s size).2.bufferEnd) := by
  unfold read
  split
  · rename_i hhit
    exact ⟨h.contained, fun _ => ⟨.refl h, rfl, hhit⟩⟩
  · rename_i hmiss
    -- inside moov a read that has to fill the buffer finds nothing recorded
    exact refill_resized_spec env inside h (fun stop hstop => (hfresh stop hstop).resolve_right hmiss) hmiss
      (sizeLeft_cases s.toFile)

theorem Went.of_log {inside : Option Nat} {s s' : St} {e : Event} (hfill : lastFill (e :: s.trace) = lastFill s.trace)
    (h : Went inside (s.log e) s') : Went inside s s' where
  sound := h.sound
  offset := h.offset
  fileEnd := h.fileEnd
  trak := h.trak
  mvhd := h.mvhd
  frame := fun hin hnot =>
    have hframe := h.frame hin hnot
    ⟨hframe.buffer, hframe.bufferStart, hframe.bufferEnd, hframe.lastFill.trans hfill, hframe.moved⟩

theorem readFor_spec (inside : Option Nat) (table : Table) (htable : table = .top ↔ inside = none) {s : St} (size : Nat)
    (h : Sound inside s) (hmeets : AllMeet conf (readFor env table s size).2) :
    Contained (readFor env table s size).2.trace ∧
      ((readFor env table s size).1 = .ok →
        Went inside s (readFor env table s size).2 ∧ (readFor env table s size).2.offset = s.offset ∧
          (readFor env table s size).2.bufferPos + size ≤ (readFor env table s size).2.bufferEnd) := by
  have hmeet := hmeets _ ((read_grows env (s.log (.read table s.toFile size)) size).subset (List.mem_cons_self ..))
  obtain ⟨hc, hok⟩ := read_spec env inside size (h.log (e := .read table s.toFile size) trivial rfl) (by
    intro stop hstop
    refine hmeet.resolve_left fun htop => ?_
    rw [htable.mp htop] at hstop
    cases hstop)
  exact ⟨hc, fun hrc => ⟨(hok hrc).1.of_log rfl, (hok hrc).2⟩⟩

-- What the part of ngx_http_mp4_read_atom before the names leaves: it returns, or there is an atom in the data.
structure HeaderSpec (inside : Option Nat) (stop : Nat) (s : St) (r : (Rc ⊕ Nat × Nat) × St) : Prop where
  contained : Contained r.2.trace
  went : r.1 ≠ .inl .error → Went inside s r.2 ∧ r.2.offset = s.offset
  notDeclined : r.1 ≠ .inl .declined
  atom : ∀ atomSize headerSize, r.1 = .inr (atomSize, headerSize) →
    8 ≤ headerSize ∧ headerSize ≤ 16 ∧ headerSize ≤ atomSize ∧ s.offset + atomSize ≤ stop ∧
      r.2.bufferPos + 8 ≤ r.2.bufferEnd

theorem HeaderSpec.error {inside : Option Nat} {stop : Nat} {s s' : St} (h : Contained s'.trace) :
    HeaderSpec inside stop s (.inl .error, s') :=
  ⟨h, fun hne => absurd rfl hne, nofun, nofun⟩

theorem HeaderSpec.trans {inside : Option Nat} {stop : Nat} {s s₁ : St} {r : (Rc ⊕ Nat × Nat) × St}
    (h : HeaderSpec inside stop s₁ r) (hwent : Went inside s s₁) (hoffset : s₁.offset = s.offset) :
    HeaderSpec inside stop s r where
  contained := h.contained
  went := fun hne => ⟨hwent.trans (h.went hne).1, (h.went hne).2.trans hoffset⟩
  notDeclined := h.notDeclined
  atom := fun atomSize headerSize hr => by
    rw [← hoffset]
    exact h.atom atomSize headerSize hr

theorem checkAtom_spec (inside : Option Nat) (table : Table) (htable : table = .top ↔ inside = none) {stop : Nat}
    {atomSize headerSize : Nat} {s : St} (h : Sound inside s) (hlow : 8 ≤ headerSize) (hhigh : headerSize ≤ 16)
    (hsize : headerSize ≤ atomSize) (hmeets : AllMeet conf (checkAtom env table stop atomSize headerSize s).2) :
    HeaderSpec inside stop s (checkAtom env table stop atomSize headerSize s) := by
  have hread := readFor_spec env conf inside table htable 8 h
  unfold checkAtom at hmeets ⊢
  generalize readFor env table s 8 = r at hread hmeets ⊢
  obtain ⟨rc, s'⟩ := r
  cases rc with
  | error => exact .error (hread hmeets).1
  | declined => exact .error (hread hmeets).1
  | ok =>
    dsimp only at hmeets ⊢
    have hmeets' : AllMeet conf s' := by
      split at hmeets <;> exact hmeets
    obtain ⟨hcontained, hok⟩ := hread hmeets'
    obtain ⟨hwent, hoffset, hin⟩ := hok rfl
    dsimp only at hwent hoffset hin
    split
    · exact .error hcontained
    rename_i hfits
    refine ⟨hcontained, fun _ => ⟨hwent, hoffset⟩, nofun, ?_⟩
    rintro _ _ ⟨⟩
    exact ⟨hlow, hhigh, hsize, by omega, hin⟩

theorem readHeader_spec (inside : Option Nat) (table : Table) (htable : table = .top ↔ inside = none) (stop : Nat)
    {s : St} (h : Sound inside s) (hmeets : AllMeet conf (readHeader env table stop s).2) :
    HeaderSpec inside stop s (readHeader env table stop s) := by
  have hread := readFor_spec env conf inside table htable 4 h
  unfold readHeader at hmeets ⊢
  generalize readFor env table s 4 = r at hread hmeets ⊢
  obtain ⟨rc, s₁⟩ := r
  cases rc with
  | error => exact .error (hread hmeets).1
  | declined => exact .error (hread hmeets).1
  | ok =>
    dsimp only at hread hmeets ⊢
    by_cases hzero : get32 s₁.mem s₁.bufferPos = 0
    · rw [if_pos hzero] at hmeets ⊢
      obtain ⟨hwent, hoffset, _⟩ := (hread hmeets).2 rfl
      exact ⟨(hread hmeets).1, fun _ => ⟨hwent, hoffset⟩, nofun, nofun⟩
    rw [if_neg hzero] at hmeets ⊢
    by_cases hsmall : get32 s₁.mem s₁.bufferPos < 8
    · rw [if_pos hsmall] at hmeets ⊢
      by_cases hone : get32 s₁.mem s₁.bufferPos = 1
      · rw [if_pos hone] at hmeets ⊢
        have hgrow := readFor_grows env table s₁ 16
        have hlong := readFor_spec env conf inside table htable (s := s₁) 16
        generalize readFor env table s₁ 16 = r at hgrow hlong hmeets ⊢
        obtain ⟨rc, s₂⟩ := r
        cases rc with
        | error =>
          obtain ⟨hwent, hoffset, _⟩ := (hread (hmeets.mono conf hgrow)).2 rfl
          exact .error (hlong hwent.sound hmeets).1
        | declined =>
          obtain ⟨hwent, hoffset, _⟩ := (hread (hmeets.mono conf hgrow)).2 rfl
          exact .error (hlong hwent.sound hmeets).1
        | ok =>
          dsimp only at hgrow hlong hmeets ⊢
          -- the 64-bit size is the one that the condition is about
          have hlogged : AllMeet conf (s₂.log (.size64 (get64 s₂.mem (s₂.bufferPos + 8)))) :=
            hmeets.mono conf (checkAtom_grows env table stop _ 16 _)
          have hmeets₂ : AllMeet conf s₂ := hlogged.mono conf (log_grows s₂ _)
          have hsize : 16 ≤ get64 s₂.mem (s₂.bufferPos + 8) := hlogged _ (List.mem_cons_self ..)
          obtain ⟨hwent₁, hoffset₁, _⟩ := (hread (hmeets₂.mono conf hgrow)).2 rfl
          obtain ⟨hwent₂, hoffset₂, _⟩ := (hlong hwent₁.sound hmeets₂).2 rfl
          have hsound := hwent₂.sound.log (e := .size64 (get64 s₂.mem (s₂.bufferPos + 8))) trivial rfl
          have hcheck := checkAtom_spec env conf inside table htable hsound (by omega) (by omega) hsize hmeets
          have hback : Went inside s₂ (s₂.log (.size64 (get64 s₂.mem (s₂.bufferPos + 8)))) :=
            (Went.refl hsound).of_log rfl
          exact ((hcheck.trans hback rfl).trans hwent₂ hoffset₂).trans hwent₁ hoffset₁
      · rw [if_neg hone] at hmeets ⊢
        exact .error (hread hmeets).1
    · rw [if_neg hsmall] at hmeets ⊢
      obtain ⟨hwent, hoffset, _⟩ := (hread (hmeets.mono conf (checkAtom_grows env table stop _ 8 s₁))).2 rfl
      have hcheck := checkAtom_spec env conf inside table htable hwent.sound (by omega) (by omega) (by omega) hmeets
      exact hcheck.trans hwent hoffset

-- The state when a handler is called with the size of the data
structure AtHandler (inside : Option Nat) (n : Nat) (s : St) : Prop where
  sound : Sound inside s
  buffer : s.buffer ≠ none
  header : 8 ≤ s.bufferPos
  file : s.offset + n ≤ s.fileEnd
  moov : ∀ moovEnd, inside = some moovEnd → Loaded moovEnd s ∧ s.offset + n ≤ moovEnd

theorem AtHandler.log {inside : Option Nat} {n : Nat} {s : St} (h : AtHandler inside n s) (table : Table)
    (htable : table ≠ .top → inside ≠ none) (handler : Handler) :
    AtHandler inside n (s.log (.call table handler s.toFile n)) := by
  obtain ⟨hstart, hsync⟩ := h.sound.buffer h.buffer
  refine ⟨h.sound.log ⟨h.file, hsync, fun hne => ⟨hstart, ?_⟩⟩ rfl, h.buffer, h.header, h.file, h.moov⟩
  obtain ⟨moovEnd, hinside⟩ := Option.ne_none_iff_exists'.mp (htable hne)
  obtain ⟨hloaded, hle⟩ := h.moov moovEnd hinside
  unfold Loaded at hloaded
  omega

theorem dataSize_eq {atomSize headerSize : Nat} (h : headerSize ≤ atomSize) (hlt : atomSize < 2 ^ 64) (hheader : headerSize ≤ 16) :
    ptr atomSize (2 ^ 64 - headerSize) = atomSize - headerSize := by
  unfold ptr
  omega

-- What follows from a header: the next n bytes, of the header or of the whole atom, can be passed over.
theorem HeaderSpec.next {inside : Option Nat} {stop : Nat} {s s₁ : St} {atomSize headerSize n : Nat}
    (h : HeaderSpec inside stop s (.inr (atomSize, headerSize), s₁)) (hstop : stop ≤ s.fileEnd)
    (hinside : ∀ moovEnd, inside = some moovEnd → stop ≤ moovEnd) (hn : n ≤ atomSize) (hheader : 8 ≤ n) :
    Went inside s (s₁.atomNext n) ∧ (s₁.atomNext n).offset = s.offset + n ∧
      AtHandler inside (atomSize - n) (s₁.atomNext n) := by
  obtain ⟨hwent, hoffset⟩ := h.went nofun
  obtain ⟨_, _, _, hle, hin⟩ := h.atom _ _ rfl
  dsimp only at hwent hoffset hin
  have hend := hwent.fileEnd
  have hbuffer : s₁.buffer ≠ none := by
    intro hnone
    obtain ⟨_, hempty, _⟩ := hwent.sound.noBuffer hnone
    omega
  have hloaded : ∀ moovEnd, inside = some moovEnd → Loaded moovEnd s₁ := by
    intro moovEnd hmoov
    obtain ⟨_, _, hloaded | hpending⟩ := hwent.sound.moov moovEnd hmoov
    · exact hloaded
    · have hshort := hpending.2.1
      omega
  have hwithin : Within (bufsEnd inside (s₁.atomNext n).toFile) (s₁.atomNext n).recorded := by
    have hold := hwent.sound.within
    cases inside with
    | none => exact hold
    | some moovEnd =>
      refine Within.mono hold ?_
      have hfits := hwent.sound.fits
      show s₁.bufferPos ≤ ptr s₁.bufferPos n
      rw [ptr_eq (by omega)]
      omega
  obtain ⟨hnext, hoff, hpos, hload⟩ := hwent.sound.moves (atomNext_moves n s₁) (by omega)
    (fun moovEnd hmoov => ⟨hloaded moovEnd hmoov, by have := hinside moovEnd hmoov; omega⟩) hbuffer hwithin
  refine ⟨hwent.trans hnext, by omega, hnext.sound, hbuffer, by omega, ?_, ?_⟩
  · have hend' := hnext.fileEnd
    omega
  · intro moovEnd hmoov
    have hle' := hinside moovEnd hmoov
    exact ⟨hload moovEnd hmoov, by omega⟩

-- Between two atoms again, not behind an offset
def Reaches (inside : Option Nat) (stop : Nat) (s s' : St) : Prop := Went inside s s' ∧ s'.offset ≤ stop

-- What a handler, or the loop over the atoms, does with some fuel: an error ends the run.
structure Outcome (P : St → Prop) (fuel : Nat) (s : St) (r : Option Rc × St) : Prop where
  contained : Contained r.2.trace
  returns : s.fileEnd - s.offset < fuel → r.1 ≠ none
  after : ∀ rc, r.1 = some rc → rc ≠ .error → P r.2

theorem Outcome.back {P Q : St → Prop} {fuel fuel' : Nat} {s s₁ : St} {r : Option Rc × St} (h : Outcome P fuel s₁ r)
    (hfuel : s.fileEnd - s.offset < fuel' → s₁.fileEnd - s₁.offset < fuel) (hafter : ∀ s', P s' → Q s') :
    Outcome Q fuel' s r :=
  ⟨h.contained, fun hlt => h.returns (hfuel hlt), fun rc hrc hne => hafter _ (h.after rc hrc hne)⟩

theorem Outcome.trans {inside : Option Nat} {stop fuel : Nat} {s s₁ : St} {r : Option Rc × St}
    (h : Outcome (Reaches inside stop s₁) fuel s₁ r) (hwent : Went inside s s₁) :
    Outcome (Reaches inside stop s) fuel s r := by
  have hend := hwent.fileEnd
  have hoffset := hwent.offset
  exact h.back (by omega) fun s' hs' => ⟨hwent.trans hs'.1, hs'.2⟩

-- Another memory, and traks that are recorded before buffer_pos
theorem AtHandler.record {moovEnd n : Nat} {s : St} (h : AtHandler (some moovEnd) n s) (mem : Memory) (traks : List Trak)
    (hlen : s.trak.length ≤ traks.length) (hwithin : ∀ t ∈ traks, Within s.bufferPos t.bufs) :
    Went (some moovEnd) s { s with mem := mem, trak := traks } where
  sound := {
    contained := h.sound.contained
    offset_le := h.sound.offset_le
    fileEnd_lt := h.sound.fileEnd_lt
    fits := h.sound.fits
    noBuffer := fun hnone => absurd hnone h.buffer
    buffer := fun _ => h.sound.buffer h.buffer
    within := (within_recorded _ _).mpr ⟨((within_recorded _ _).mp h.sound.within).1, hwithin⟩
    moov := fun stop hstop => ⟨(h.sound.moov stop hstop).1, (h.sound.moov stop hstop).2.1, .inl (h.moov stop hstop).1⟩ }
  offset := Nat.le_refl _
  fileEnd := rfl
  trak := hlen
  mvhd := id
  frame := fun _ _ => ⟨rfl, rfl, rfl, rfl, rfl⟩

theorem AtHandler.trakWithin {moovEnd n : Nat} {s : St} (h : AtHandler (some moovEnd) n s) :
    ∀ t ∈ s.trak, Within s.bufferPos t.bufs := ((within_recorded _ _).mp h.sound.within).2

theorem leaf_outcome {moovEnd n fuel : Nat} {s : St} {r : Rc × St} (h : AtHandler (some moovEnd) n s)
    (hleaf : Leaf n s r) : Outcome (Reaches (some moovEnd) (s.offset + n) s) fuel s (leaf r) where
  contained := by
    show Contained r.2.trace
    rw [hleaf.trace]
    exact h.sound.contained
  returns := fun _ => nofun
  after := by
    rintro rc hrc hne
    obtain rfl : r.1 = rc := Option.some.inj hrc
    cases hr : r.1 with
    | error => exact absurd hr hne
    | ok =>
      have hfits := h.sound.fits
      have hfile := h.file
      have hm := hleaf.moves hr
      have hpos : r.2.bufferPos = s.bufferPos + n := by rw [hm.bufferPos, ptr_eq (by omega)]
      have hwithin : Within (bufsEnd (some moovEnd) r.2.toFile) r.2.recorded := by
        show Within r.2.bufferPos r.2.recorded
        rw [hpos]
        exact hleaf.within hr h.header (Within.mono h.sound.within (Nat.le_add_right _ _))
      obtain ⟨hwent, hoffset, _, _⟩ := h.sound.moves hm hfile h.moov h.buffer hwithin
      exact ⟨hwent, Nat.le_of_eq hoffset⟩
    | declined =>
      obtain ⟨mem, hs'⟩ := hleaf.declined hr
      show Went (some moovEnd) s r.2 ∧ r.2.offset ≤ s.offset + n
      rw [hs']
      exact ⟨h.record mem _ (Nat.le_refl _) h.trakWithin, Nat.le_add_right _ _⟩

-- What the handlers are promised of ngx_http_mp4_read_atom inside moov
def InnerSpec (fuel : Nat) (readAtom : ReadAtom) : Prop :=
  ∀ table n s moovEnd, table ≠ .top → Sound (some moovEnd) s → s.offset + n ≤ moovEnd →
    AllMeet conf (readAtom table n s).2 → Outcome (Reaches (some moovEnd) (s.offset + n) s) fuel s (readAtom table n s)

theorem containerAtom_outcome {fuel moovEnd n : Nat} {readAtom : ReadAtom} (hread : InnerSpec conf fuel readAtom)
    (name : Bytes) (k : TrakAtom) {table : Table} (htable : table ≠ .top) {s : St} (h : AtHandler (some moovEnd) n s)
    (hmeets : AllMeet conf (containerAtom name k table readAtom n s).2) :
    Outcome (Reaches (some moovEnd) (s.offset + n) s) fuel s (containerAtom name k table readAtom n s) := by
  have hheader := h.header
  have hwithin : Within s.bufferPos
      (({ s with mem := setAtomName s.mem (s.bufferPos - 8) name } : St).lastTrak
        fun t => t.put k (s.bufferPos - 8) (s.bufferPos - 8 + 8)).recorded :=
    within_lastTrak (fun t ht => within_put ht (by omega)) h.sound.within
  have hwent := h.record (setAtomName s.mem (s.bufferPos - 8) name)
    (s.trak.modify (s.trak.length - 1) fun t => t.put k (s.bufferPos - 8) (s.bufferPos - 8 + 8))
    (by simp) ((within_recorded _ _).mp hwithin).2
  exact (hread table n _ moovEnd htable hwent.sound (h.moov moovEnd rfl).2 hmeets).trans hwent

-- A trak that is skipped leaves the buffer where its atom ends.
theorem skipTrak_went {moovEnd n : Nat} {s s₁ s₂ : St} (h : AtHandler (some moovEnd) n s)
    (h₁ : Went (some moovEnd) s s₁) (hpos₁ : s₁.bufferPos = s.bufferPos) (hoffset₁ : s₁.offset = s.offset)
    (htrak : s.trak.length < s₁.trak.length) (h₂ : Went (some moovEnd) s₁ s₂) (hle : s₂.offset ≤ s.offset + n) :
    Went (some moovEnd) s
      { s₂ with trak := s₂.trak.dropLast, bufferPos := s.bufferPos + n, offset := s.offset + n } := by
  have hnotFresh : ¬s₁.Fresh := by
    rintro ⟨_, hnil⟩
    rw [hnil] at htrak
    exact absurd htrak (Nat.not_lt_zero _)
  have hmoved := (h₂.frame nofun hnotFresh).moved
  have hend := h₂.fileEnd.trans h₁.fileEnd
  have hfits := h.sound.fits
  have hfile := h.file
  obtain ⟨_, hin⟩ := h.moov moovEnd rfl
  have hback := h₂.offset
  have hlen := h₂.trak
  have hlimit : s₂.bufferPos ≤ s.bufferPos + n := by omega
  have hall := (within_recorded _ _).mp h₂.sound.within
  have hwithin : Within (s.bufferPos + n)
      ({ s₂ with trak := s₂.trak.dropLast, bufferPos := s.bufferPos + n, offset := s.offset + n } : St).recorded :=
    (within_recorded _ _).mpr
      ⟨hall.1.mono hlimit, fun t ht => (hall.2 t (List.dropLast_subset _ ht)).mono hlimit⟩
  refine ⟨⟨h₂.sound.contained, ?_, h₂.sound.fileEnd_lt, ?_, ?_, ?_, hwithin, ?_⟩, Nat.le_add_right _ _, hend, ?_, ?_, ?_⟩
  · show s.offset + n ≤ s₂.fileEnd
    omega
  · show s.bufferPos + n + (s₂.fileEnd - (s.offset + n)) < 2 ^ 64
    omega
  · intro hnone
    exact absurd (h₂.sound.noBuffer hnone).2.2 (h₂.notFresh hnotFresh)
  · intro hbuffer
    obtain ⟨hstart, hsync⟩ := h₂.sound.buffer hbuffer
    refine ⟨Nat.le_trans hstart hlimit, synced_of_frame s₂ _ rfl ?_ hsync⟩
    show s.bufferPos + n + s₂.offset = s₂.bufferPos + (s.offset + n)
    omega
  · rintro _ ⟨⟩
    obtain ⟨_, hmoov, hloaded | hpending⟩ := h₂.sound.moov moovEnd rfl
    · refine ⟨hin, hmoov, .inl ?_⟩
      unfold Loaded at hloaded
      show s.bufferPos + n + (moovEnd - (s.offset + n)) ≤ s₂.bufferEnd
      omega
    · exact absurd hpending.1 (h₂.notFresh hnotFresh)
  · show s.trak.length ≤ s₂.trak.dropLast.length
    rw [List.length_dropLast]
    omega
  · exact fun hnone => h₁.mvhd (h₂.mvhd hnone)
  · intro hinside hfresh
    have hframe := (h₁.frame hinside hfresh).trans (h₂.frame hinside hnotFresh)
    refine ⟨hframe.buffer, hframe.bufferStart, hframe.bufferEnd, hframe.lastFill, ?_⟩
    show s.bufferPos + n + s.offset = s.bufferPos + (s.offset + n)
    omega

theorem readTrakAtom_outcome {fuel moovEnd n : Nat} {readAtom : ReadAtom} (hread : InnerSpec conf fuel readAtom)
    {s : St} (h : AtHandler (some moovEnd) n s) (hmeets : AllMeet conf (readTrakAtom readAtom n s).2) :
    Outcome (Reaches (some moovEnd) (s.offset + n) s) fuel s (readTrakAtom readAtom n s) := by
  have hheader := h.header
  have hfits := h.sound.fits
  have hlt := h.sound.fileEnd_lt
  have hfile := h.file
  have hwent := h.record (setAtomName s.mem (s.bufferPos - 8) (ngxString "trak"))
    (s.trak ++ [({} : Trak).put .trak (s.bufferPos - 8) (s.bufferPos - 8 + 8)]) (by simp) (by
      intro t ht
      obtain ht | ht := List.mem_append.mp ht
      · exact h.trakWithin t ht
      · obtain rfl := List.mem_singleton.mp ht
        exact within_put (fun b hb => by simp [Trak.bufs] at hb) (by omega))
  have houtcome := hread .trak n _ moovEnd (by rintro ⟨⟩) hwent.sound (h.moov moovEnd rfl).2
  unfold readTrakAtom at hmeets ⊢
  dsimp only at hmeets ⊢
  rw [ptr_eq (p := s.bufferPos) (by omega), ptr_eq (p := s.offset) (by omega)] at hmeets ⊢
  generalize readAtom .trak n _ = r at houtcome hmeets ⊢
  obtain ⟨rc, s₂⟩ := r
  cases rc with
  | none => exact (houtcome hmeets).trans hwent
  | some rc =>
    cases rc with
    | ok => exact (houtcome hmeets).trans hwent
    | error => exact (houtcome hmeets).trans hwent
    | declined =>
      have hsub := houtcome hmeets
      obtain ⟨hwent₂, hle⟩ := hsub.after .declined rfl (by rintro ⟨⟩)
      refine ⟨hsub.contained, fun _ => by rintro ⟨⟩, ?_⟩
      rintro rc hrc _
      exact ⟨skipTrak_went h hwent rfl rfl (by simp) hwent₂ hle, Nat.le_refl _⟩

theorem moovBuffer_trace (n : Nat) (s : St) : (moovBuffer n s).trace = s.trace := by
  unfold moovBuffer
  split <;> rfl

theorem moovDone_trace (noMdat : Bool) (s : St) : (moovDone noMdat s).trace = s.trace := by
  unfold moovDone
  split <;> rfl

theorem readMoovAtom_grows {readAtom : ReadAtom} (hread : ∀ table n s, s.trace <:+ (readAtom table n s).2.trace)
    (n : Nat) (s : St) : s.trace <:+ (readMoovAtom env conf readAtom n s).2.trace := by
  unfold readMoovAtom
  dsimp only
  split
  · exact List.suffix_rfl
  split
  · exact List.suffix_rfl
  have hgrow := hread .moov n
    { moovBuffer n s with moovAtom := some ⟨env.moovAtomHeader, env.moovAtomHeader + 8⟩ }
  generalize readAtom .moov n _ = r at hgrow ⊢
  obtain ⟨rc, s'⟩ := r
  change (moovBuffer n s).trace <:+ s'.trace at hgrow
  rw [moovBuffer_trace] at hgrow
  cases rc with
  | none => exact hgrow
  | some rc =>
    show s.trace <:+ (moovDone _ s').trace
    rw [moovDone_trace]
    exact hgrow

theorem readTrakAtom_grows {readAtom : ReadAtom} (hread : ∀ table n s, s.trace <:+ (readAtom table n s).2.trace)
    (n : Nat) (s : St) : s.trace <:+ (readTrakAtom readAtom n s).2.trace := by
  unfold readTrakAtom
  dsimp only
  have hgrow := hread .trak n
    { s with
      trak := s.trak ++ [({} : Trak).put .trak (s.bufferPos - 8) (s.bufferPos - 8 + 8)]
      mem := setAtomName s.mem (s.bufferPos - 8) (ngxString "trak") }
  generalize readAtom .trak n _ = r at hgrow ⊢
  split <;> exact hgrow

-- The handlers only add to the trace when what they call does.
theorem handle_grows (readAtom : ReadAtom) (hread : ∀ table n s, s.trace <:+ (readAtom table n s).2.trace)
    (h : Handler) (n : Nat) (s : St) : s.trace <:+ (handle env conf readAtom h n s).2.trace := by
  by_cases hftyp : h = .ftyp
  · subst hftyp
    show s.trace <:+ (readFtypAtom env n s).2.trace
    unfold readFtypAtom
    split
    · exact List.suffix_rfl
    dsimp only
    split
    · exact List.suffix_rfl
    · exact List.suffix_rfl
  by_cases hmdat : h = .mdat
  · subst hmdat
    show s.trace <:+ (readMdatAtom n s).2.trace
    unfold readMdatAtom
    dsimp only
    split
    · exact List.suffix_rfl
    · exact List.suffix_rfl
  by_cases hmoov : h = .moov
  · subst hmoov
    exact readMoovAtom_grows env conf hread n s
  obtain ⟨r, hr, hleaf⟩ | hr | ⟨name, k, table, _, hr⟩ := handle_inside env conf readAtom n s hftyp hmoov hmdat
  · rw [hr]
    have htrace : r.2.trace = s.trace := hleaf.trace
    exact htrace.symm ▸ List.suffix_rfl
  · rw [hr]
    exact readTrakAtom_grows hread n s
  · rw [hr]
    exact hread table n
      ({ s with mem := setAtomName s.mem (s.bufferPos - 8) name }.lastTrak
        fun t => t.put k (s.bufferPos - 8) (s.bufferPos - 8 + 8))

theorem readAtomLoop_grows (fuel : Nat) (table : Table) (stop : Nat) (s : St) :
    s.trace <:+ (readAtomLoop env conf fuel table stop s).2.trace := by
  induction fuel generalizing table stop s with
  | zero => exact List.suffix_rfl
  | succ fuel ih =>
    unfold readAtomLoop
    split
    · have hheader := readHeader_grows env table stop s
      generalize readHeader env table stop s = r at hheader ⊢
      obtain ⟨out, s₁⟩ := r
      cases out with
      | inl rc => exact hheader
      | inr sizes =>
        obtain ⟨atomSize, headerSize⟩ := sizes
        dsimp only at hheader ⊢
        split
        · exact hheader.trans (ih table stop (s₁.atomNext atomSize))
        · rename_i h _
          have hcall := handle_grows env conf (fun table n s => readAtomLoop env conf fuel table (ptr s.offset n) s)
            (fun table n s => ih table (ptr s.offset n) s) h (ptr atomSize (2 ^ 64 - headerSize))
            ((s₁.atomNext headerSize).log
              (.call table h (s₁.atomNext headerSize).toFile (ptr atomSize (2 ^ 64 - headerSize))))
          have hlog := hheader.trans ((log_grows (s₁.atomNext headerSize) _).trans hcall)
          generalize handle env conf _ h _ _ = r at hlog ⊢
          obtain ⟨rc, s₂⟩ := r
          split
          · rename_i hrc
            cases hrc
            exact hlog.trans (ih table stop s₂)
          · exact hlog
    · exact List.suffix_rfl

theorem handle_outcome {fuel moovEnd n : Nat} {readAtom : ReadAtom} (hread : InnerSpec conf fuel readAtom)
    {h : Handler} (hftyp : h ≠ .ftyp) (hmoov : h ≠ .moov) (hmdat : h ≠ .mdat) {s : St} (hs : AtHandler (some moovEnd) n s)
    (hmeets : AllMeet conf (handle env conf readAtom h n s).2) :
    Outcome (Reaches (some moovEnd) (s.offset + n) s) fuel s (handle env conf readAtom h n s) := by
  obtain ⟨r, hr, hleaf⟩ | hr | ⟨name, k, table, htable, hr⟩ := handle_inside env conf readAtom n s hftyp hmoov hmdat
  · rw [hr]
    exact leaf_outcome hs hleaf
  · rw [hr] at hmeets ⊢
    exact readTrakAtom_outcome conf hread hs hmeets
  · rw [hr] at hmeets ⊢
    exact containerAtom_outcome conf hread name k htable hs hmeets

-- What has to be known of the call of a handler for the turns behind it
structure CallSpec (P : St → Prop) (fuel : Nat) (table : Table) (stop : Nat) (s : St) (r : Option Rc × St) : Prop where
  contained : Contained r.2.trace
  returns : s.fileEnd - s.offset < fuel → r.1 ≠ none
  declined : r.1 = some .declined → P r.2
  ok : r.1 = some .ok → AllMeet conf (readAtomLoop env conf fuel table stop r.2).2 →
    Outcome P fuel s (readAtomLoop env conf fuel table stop r.2)

-- One turn: the header is read, and the atom is passed over or given to its handler.
theorem loop_turn {P : St → Prop} (inside : Option Nat) {fuel : Nat} (table : Table)
    (htable : table = .top ↔ inside = none) {stop : Nat} {s : St} (h : Sound inside s) (hlt : s.offset < stop)
    (hstop : stop ≤ s.fileEnd) (hinside : ∀ moovEnd, inside = some moovEnd → stop ≤ moovEnd)
    (hend : ∀ s', Went inside s s' → s'.offset = s.offset → P s')
    (hskip : ∀ s', Went inside s s' → s.offset < s'.offset → s'.offset ≤ stop →
      AllMeet conf (readAtomLoop env conf fuel table stop s').2 →
      Outcome P fuel s' (readAtomLoop env conf fuel table stop s'))
    (hcall : ∀ name handler n s', table.find name = some handler → Went inside s s' → s.offset < s'.offset →
      s'.offset + n ≤ stop → AtHandler inside n s' → (handler = .moov → MoovMeets conf s'.toFile n) →
      AllMeet conf (handle env conf (readAtom env conf fuel) handler n s').2 →
      CallSpec env conf P fuel table stop s' (handle env conf (readAtom env conf fuel) handler n s'))
    (hmeets : AllMeet conf (readAtomLoop env conf (fuel + 1) table stop s).2) :
    Outcome P (fuel + 1) s (readAtomLoop env conf (fuel + 1) table stop s) := by
  have hheader := readHeader_spec env conf inside table htable stop h
  unfold readAtomLoop at hmeets ⊢
  rw [if_pos hlt] at hmeets ⊢
  generalize readHeader env table stop s = r at hheader hmeets ⊢
  obtain ⟨out, s₁⟩ := r
  cases out with
  | inl rc =>
    have hspec := hheader hmeets
    refine ⟨hspec.contained, fun _ => by rintro ⟨⟩, ?_⟩
    rintro rc' ⟨⟩ hne
    obtain ⟨hwent, hoffset⟩ := hspec.went (fun heq => hne (Sum.inl.inj heq))
    exact hend s₁ hwent hoffset
  | inr sizes =>
    obtain ⟨atomSize, headerSize⟩ := sizes
    dsimp only at hmeets ⊢
    cases hfind : table.find (load s₁.mem (s₁.bufferPos + 4) 4) with
    | none =>
      rw [hfind] at hmeets
      dsimp only at hmeets ⊢
      have hspec := hheader (hmeets.mono conf (readAtomLoop_grows env conf fuel table stop (s₁.atomNext atomSize)))
      obtain ⟨hlow, _, hsize, hle, _⟩ := hspec.atom _ _ rfl
      obtain ⟨hwent, hoffset, _⟩ := hspec.next hstop hinside (Nat.le_refl _) (by omega)
      have hfile := hwent.fileEnd
      exact (hskip _ hwent (by omega) (by omega) hmeets).back (by omega) fun _ => id
    | some handler =>
      rw [hfind] at hmeets
      dsimp only at hmeets ⊢
      have hcalled := handle_grows env conf (readAtom env conf fuel)
        (fun table n s => readAtomLoop_grows env conf fuel table (ptr s.offset n) s) handler
        (ptr atomSize (2 ^ 64 - headerSize))
        ((s₁.atomNext headerSize).log
          (.call table handler (s₁.atomNext headerSize).toFile (ptr atomSize (2 ^ 64 - headerSize))))
      have hreadAtom : (fun table n s => readAtomLoop env conf fuel table (ptr s.offset n) s) = readAtom env conf fuel := rfl
      rw [hreadAtom] at hmeets ⊢
      have hspec := hcall (load s₁.mem (s₁.bufferPos + 4) 4) handler (ptr atomSize (2 ^ 64 - headerSize))
        ((s₁.atomNext headerSize).log
          (.call table handler (s₁.atomNext headerSize).toFile (ptr atomSize (2 ^ 64 - headerSize)))) hfind
      generalize handle env conf (readAtom env conf fuel) handler _ _ = r at hcalled hspec hmeets ⊢
      obtain ⟨rc, s₃⟩ := r
      -- what the call has met, whether the loop goes on or not
      have hmeets₃ : AllMeet conf s₃ := by
        split at hmeets
        · rename_i hrc
          cases hrc
          exact hmeets.mono conf (readAtomLoop_grows env conf fuel table stop s₃)
        · exact hmeets
      have hlogged := hmeets₃.mono conf hcalled
      have hheader' := hheader (hlogged.mono conf (log_grows (s₁.atomNext headerSize) _))
      obtain ⟨hlow, hhigh, hsize, hle, _⟩ := hheader'.atom _ _ rfl
      obtain ⟨hwent, hoffset, hat⟩ := hheader'.next hstop hinside hsize hlow
      have hlt₆₃ := h.fileEnd_lt
      rw [← dataSize_eq hsize (by omega) hhigh] at hat
      have hnot : table ≠ .top → inside ≠ none := fun hne hnone => hne (htable.mpr hnone)
      have hat' := hat.log table hnot handler
      have hwent' := hwent.trans ((Went.refl hat'.sound).of_log (s := s₁.atomNext headerSize) rfl)
      have hdata := dataSize_eq hsize (by omega) hhigh
      have hdone := hspec hwent' (by show s.offset < (s₁.atomNext headerSize).offset; omega)
        (by show (s₁.atomNext headerSize).offset + _ ≤ stop; omega) hat' (hlogged _ (List.mem_cons_self ..)) hmeets₃
      have hfuel : s.fileEnd - s.offset < fuel + 1 →
          (s₁.atomNext headerSize).fileEnd - (s₁.atomNext headerSize).offset < fuel := by
        have hend' := hwent.fileEnd
        omega
      split
      · rename_i hrc
        cases hrc
        dsimp only at hmeets
        exact (hdone.ok rfl hmeets).back hfuel fun _ => id
      · rename_i hne
        refine ⟨hdone.contained, fun hlt => hdone.returns (hfuel hlt), ?_⟩
        rintro rc' hrc hnotError
        cases rc' with
        | ok =>
          obtain rfl : rc = some .ok := hrc
          exact (hne s₃ rfl).elim
        | error => exact absurd rfl hnotError
        | declined => exact hdone.declined hrc

theorem loop_inside (fuel : Nat) (table : Table) (htable : table ≠ .top) {stop moovEnd : Nat} {s : St}
    (h : Sound (some moovEnd) s) (hle : s.offset ≤ stop) (hstop : stop ≤ moovEnd)
    (hmeets : AllMeet conf (readAtomLoop env conf fuel table stop s).2) :
    Outcome (Reaches (some moovEnd) stop s) fuel s (readAtomLoop env conf fuel table stop s) := by
  induction fuel generalizing table stop moovEnd s with
  | zero => exact ⟨h.contained, fun hfuel => absurd hfuel (Nat.not_lt_zero _), nofun⟩
  | succ fuel ih =>
    have hread : InnerSpec conf fuel (readAtom env conf fuel) := by
      intro table n s moovEnd htable hsound hin hmeets
      have hfile := (hsound.moov moovEnd rfl).2.1
      have hlt := hsound.fileEnd_lt
      unfold readAtom at hmeets ⊢
      rw [ptr_eq (by omega)] at hmeets ⊢
      exact ih table htable hsound (Nat.le_add_right _ _) hin hmeets
    have hfile := (h.moov moovEnd rfl).2.1
    by_cases hlt : s.offset < stop
    · refine loop_turn env conf (some moovEnd) table ⟨fun htop => absurd htop htable, nofun⟩ h hlt (by omega) ?_ ?_ ?_ ?_
        hmeets
      · rintro _ ⟨⟩
        exact hstop
      · exact fun s' hwent hoffset => ⟨hwent, by omega⟩
      · intro s' hwent hpast hle' hmeets'
        have hrest := ih table htable hwent.sound hle' hstop hmeets'
        exact hrest.back id fun s'' hs'' => ⟨hwent.trans hs''.1, hs''.2⟩
      · intro name handler n s' hfind hwent hpast hle' hat _ hmeets'
        obtain ⟨hftyp, hmoov, hmdat⟩ := find_inside htable hfind
        have hcall := handle_outcome env conf hread hftyp hmoov hmdat hat hmeets'
        refine ⟨hcall.contained, hcall.returns, fun hrc => ?_, fun hrc hmeets'' => ?_⟩
        · obtain ⟨hafter, hend⟩ := hcall.after _ hrc nofun
          exact ⟨hwent.trans hafter, by omega⟩
        · obtain ⟨hafter, hend⟩ := hcall.after _ hrc nofun
          have hrest := ih table htable hafter.sound (by omega) hstop hmeets''
          have hfuel : s'.fileEnd - s'.offset < fuel → _ := fun hlt' => by
            have hfileEnd := hafter.fileEnd
            have hforward := hafter.offset
            exact (by omega : (handle env conf (readAtom env conf fuel) handler n s').2.fileEnd -
              (handle env conf (readAtom env conf fuel) handler n s').2.offset < fuel)
          exact hrest.back hfuel fun s'' hs'' => ⟨(hwent.trans hafter).trans hs''.1, hs''.2⟩
    · unfold readAtomLoop
      rw [if_neg hlt]
      exact ⟨h.contained, fun _ => nofun, fun rc _ _ => ⟨.refl h, hle⟩⟩

-- Outside of moov: between two atoms, or at the end of the file
def Settled (s s' : St) : Prop :=
  Contained s'.trace ∧ s.offset ≤ s'.offset ∧ s'.fileEnd = s.fileEnd ∧ (Sound none s' ∨ s'.offset = s'.fileEnd)

theorem readFtypAtom_moves (n : Nat) (s : St) (hok : (readFtypAtom env n s).1 = .ok) :
    Moves n s (readFtypAtom env n s).2 ∧ (readFtypAtom env n s).2.recorded = s.recorded := by
  unfold readFtypAtom at hok ⊢
  split at hok
  · cases hok
  rename_i hsmall
  rw [if_neg hsmall]
  dsimp only at hok ⊢
  split at hok
  · cases hok
  · exact ⟨⟨rfl, rfl, rfl, rfl, rfl, rfl, rfl, rfl, Nat.le_refl _, id⟩, rfl⟩

theorem Settled.of_moves {n : Nat} {s s' : St} (h : AtHandler none n s) (hm : Moves n s s')
    (hrec : s'.recorded = s.recorded) : Settled s s' := by
  have hold := h.sound.within
  obtain ⟨hwent, _, _, _⟩ := h.sound.moves hm h.file nofun h.buffer (by
    show Within s'.bufferStart s'.recorded
    rw [hm.bufferStart, hrec]
    exact hold)
  exact ⟨hwent.sound.contained, hwent.offset, hwent.fileEnd, .inl hwent.sound⟩

theorem readFtypAtom_settled {n : Nat} {s : St} (h : AtHandler none n s) (hok : (readFtypAtom env n s).1 = .ok) :
    Settled s (readFtypAtom env n s).2 := by
  obtain ⟨hmoves, hrec⟩ := readFtypAtom_moves env n s hok
  exact .of_moves h hmoves hrec

theorem readMdatAtom_settled {n : Nat} {s : St} (h : AtHandler none n s) : Settled s (readMdatAtom n s).2 := by
  unfold readMdatAtom
  dsimp only
  split
  · exact ⟨h.sound.contained, h.sound.offset_le, rfl, .inr rfl⟩
  · exact .of_moves h ⟨rfl, rfl, rfl, rfl, rfl, rfl, rfl, rfl, Nat.le_refl _, id⟩ rfl

-- The moov atom that is read: its data is in the buffer, or comes with the next read.
theorem moovBuffer_sound {n : Nat} {s : St} (h : AtHandler none n s) (hfresh : s.Fresh)
    (hplace : s.bufferSize < n ∨ s.bufferPos + n ≤ s.bufferEnd ∨ s.bufferEnd < s.bufferPos + 4) (atom : Buf) :
    Sound (some (s.offset + n)) { moovBuffer n s with moovAtom := some atom } := by
  have hlt := h.sound.fileEnd_lt
  unfold moovBuffer
  split
  · rename_i hbig
    refine ⟨h.sound.contained, h.sound.offset_le, hlt, ?_, fun _ => ⟨rfl, rfl, hfresh⟩, fun hbuffer => absurd rfl hbuffer,
      hfresh.within _, ?_⟩
    · show 0 + (s.fileEnd - s.offset) < 2 ^ 64
      omega
    · rintro _ ⟨⟩
      refine ⟨Nat.le_add_right _ _, h.file, .inr ⟨hfresh, Nat.zero_lt_succ _, ?_⟩⟩
      rw [Nat.add_sub_cancel_left]
      exact Nat.le_add_right _ _
  · rename_i hsmall
    refine ⟨h.sound.contained, h.sound.offset_le, hlt, h.sound.fits, fun hnone => absurd hnone h.buffer,
      fun _ => h.sound.buffer h.buffer, hfresh.within _, ?_⟩
    rintro _ ⟨⟩
    refine ⟨Nat.le_add_right _ _, h.file, ?_⟩
    obtain hbig | hin | hout := hplace
    · exact absurd hbig hsmall
    · refine .inl ?_
      show s.bufferPos + (s.offset + n - s.offset) ≤ s.bufferEnd
      omega
    · refine .inr ⟨hfresh, hout, ?_⟩
      show s.offset + n - s.offset ≤ s.bufferSize
      omega

theorem moovBuffer_offset (n : Nat) (s : St) : (moovBuffer n s).offset = s.offset ∧ (moovBuffer n s).fileEnd = s.fileEnd := by
  unfold moovBuffer
  split
  · exact ⟨rfl, rfl⟩
  · exact ⟨rfl, rfl⟩

theorem moovDone_settled {moovEnd : Nat} (noMdat : Bool) {s : St} (h : Sound (some moovEnd) s) :
    Settled s (moovDone noMdat s) := by
  unfold moovDone
  split
  · refine ⟨h.contained, Nat.le_refl _, rfl, .inl ?_⟩
    exact ⟨h.contained, h.offset_le, h.fileEnd_lt, h.fits, h.noBuffer,
      fun hbuffer => ⟨Nat.le_refl _, (h.buffer hbuffer).2⟩, h.within, nofun⟩
  · exact ⟨h.contained, h.offset_le, rfl, .inr rfl⟩

-- What a handler of the first table leaves
structure TopSpec (fuel : Nat) (s : St) (r : Option Rc × St) : Prop where
  contained : Contained r.2.trace
  returns : s.fileEnd - s.offset < fuel → r.1 ≠ none
  ok : r.1 = some .ok → Settled s r.2

theorem readMoovAtom_top {fuel n : Nat} {readAtom : ReadAtom} (hread : InnerSpec conf fuel readAtom) {s : St}
    (h : AtHandler none n s) (hmoov : MoovMeets conf s.toFile n)
    (hmeets : AllMeet conf (readMoovAtom env conf readAtom n s).2) :
    TopSpec fuel s (readMoovAtom env conf readAtom n s) := by
  unfold readMoovAtom at hmeets ⊢
  dsimp only at hmeets ⊢
  split
  · exact ⟨h.sound.contained, fun _ => nofun, nofun⟩
  rename_i hread'
  rw [if_neg hread'] at hmeets
  split
  · exact ⟨h.sound.contained, fun _ => nofun, nofun⟩
  rename_i hsize
  rw [if_neg hsize] at hmeets
  have hcase : s.Fresh ∧ (s.bufferSize < n ∨ s.bufferPos + n ≤ s.bufferEnd ∨ s.bufferEnd < s.bufferPos + 4) := by
    obtain ⟨hnone, hstart⟩ | hlarge | hcase := hmoov
    · exact absurd ⟨by rw [hnone]; rfl, hstart⟩ hread'
    · exact absurd hlarge hsize
    · exact hcase
  have hsound := moovBuffer_sound h hcase.1 hcase.2 ⟨env.moovAtomHeader, env.moovAtomHeader + 8⟩
  obtain ⟨hoffset, hend⟩ := moovBuffer_offset n s
  have houtcome := hread .moov n _ (s.offset + n) nofun hsound (by
    show (moovBuffer n s).offset + n ≤ s.offset + n
    omega)
  generalize readAtom .moov n _ = r at houtcome hmeets ⊢
  obtain ⟨rc, s'⟩ := r
  cases rc with
  | none =>
    have hdone := houtcome hmeets
    refine ⟨hdone.contained, fun hlt => hdone.returns ?_, nofun⟩
    show (moovBuffer n s).fileEnd - (moovBuffer n s).offset < fuel
    omega
  | some rc =>
    have hmeets' : AllMeet conf s' := by
      intro e he
      refine hmeets e ?_
      show e ∈ (moovDone _ s').trace
      rw [moovDone_trace]
      exact he
    have hdone := houtcome hmeets'
    refine ⟨?_, fun _ => nofun, ?_⟩
    · show Contained (moovDone _ s').trace
      rw [moovDone_trace]
      exact hdone.contained
    · rintro ⟨⟩
      obtain ⟨hwent, _⟩ := hdone.after .ok rfl nofun
      obtain ⟨hcontained, hle, hend', hrest⟩ : Settled s' (moovDone s.mdatAtom.isNone s') :=
        moovDone_settled s.mdatAtom.isNone hwent.sound
      have hforward : (moovBuffer n s).offset ≤ s'.offset := hwent.offset
      have hsame : s'.fileEnd = (moovBuffer n s).fileEnd := hwent.fileEnd
      exact ⟨hcontained, Nat.le_trans (by omega) hle, hend'.trans (hsame.trans hend), hrest⟩

theorem handle_top {fuel n : Nat} {readAtom : ReadAtom} (hread : InnerSpec conf fuel readAtom) {name : Bytes}
    {handler : Handler} (hfind : Table.top.find name = some handler) {s : St} (h : AtHandler none n s)
    (hmoov : handler = .moov → MoovMeets conf s.toFile n)
    (hmeets : AllMeet conf (handle env conf readAtom handler n s).2) :
    TopSpec fuel s (handle env conf readAtom handler n s) := by
  obtain rfl | rfl | rfl := find_top hfind
  · refine ⟨?_, fun _ => nofun, fun hrc => readFtypAtom_settled env h (Option.some.inj hrc)⟩
    show Contained (readFtypAtom env n s).2.trace
    unfold readFtypAtom
    split
    · exact h.sound.contained
    dsimp only
    split
    · exact h.sound.contained
    · exact h.sound.contained
  · exact readMoovAtom_top env conf hread h (hmoov rfl) hmeets
  · have hsettled := readMdatAtom_settled h
    exact ⟨hsettled.1, fun _ => nofun, fun _ => hsettled⟩

theorem loop_top (fuel : Nat) {s : St} (hcontained : Contained s.trace) (h : Sound none s ∨ s.offset = s.fileEnd)
    (hmeets : AllMeet conf (readAtomLoop env conf fuel .top s.fileEnd s).2) :
    Outcome (fun _ => True) fuel s (readAtomLoop env conf fuel .top s.fileEnd s) := by
  induction fuel generalizing s with
  | zero => exact ⟨hcontained, fun hfuel => absurd hfuel (Nat.not_lt_zero _), nofun⟩
  | succ fuel ih =>
    have hread : InnerSpec conf fuel (readAtom env conf fuel) := by
      intro table n s moovEnd htable hsound hin hmeets
      have hfile := (hsound.moov moovEnd rfl).2.1
      have hlt := hsound.fileEnd_lt
      unfold readAtom at hmeets ⊢
      rw [ptr_eq (by omega)] at hmeets ⊢
      exact loop_inside env conf fuel table htable hsound (Nat.le_add_right _ _) hin hmeets
    by_cases hlt : s.offset < s.fileEnd
    · have hsound : Sound none s := h.resolve_right (by omega)
      refine loop_turn env conf none .top ⟨fun _ => rfl, fun _ => rfl⟩ hsound hlt (Nat.le_refl _) nofun
        (fun _ _ _ => trivial) ?_ ?_ hmeets
      · intro s' hwent _ _ hmeets'
        have hend := hwent.fileEnd
        rw [← hend] at hmeets' ⊢
        exact ih hwent.sound.contained (.inl hwent.sound) hmeets'
      · intro name handler n s' hfind hwent _ _ hat hmoov hmeets'
        have hcall := handle_top env conf hread hfind hat hmoov hmeets'
        refine ⟨hcall.contained, hcall.returns, fun _ => trivial, fun hrc hmeets'' => ?_⟩
        obtain ⟨hcontained', hoffset, hend, hrest⟩ := hcall.ok hrc
        rw [← hwent.fileEnd, ← hend] at hmeets'' ⊢
        exact (ih hcontained' hrest hmeets'').back (by omega) fun _ => id
    · unfold readAtomLoop
      rw [if_neg hlt]
      exact ⟨hcontained, fun _ => nofun, fun _ _ _ => trivial⟩

theorem finish_trace (s : St) : (finish env s).2.trace = s.trace := by
  unfold finish
  split
  · rfl
  split
  · rfl
  split
  · rfl
  · rfl

-- A run whose steps meet the conditions stays in the file and in the buffer, and overwrites nothing that it has
-- recorded. It ends: it does not take more turns than the file has bytes.
theorem process_bounded (fuel start : Nat) (mem : Memory)
    (hmeets : ∀ e ∈ (process env conf fuel start mem).2.trace, e.Meets conf) :
    Contained (process env conf fuel start mem).2.trace ∧
      (env.size < fuel → (process env conf fuel start mem).1 ≠ none) := by
  have hlt := env.size_lt
  have hsound : Sound none (opened env conf start mem) := by
    refine ⟨trivial, Nat.zero_le _, hlt, ?_, fun _ => ⟨rfl, rfl, rfl, rfl⟩, fun hbuffer => absurd rfl hbuffer,
      nofun, nofun⟩
    show 0 + (env.size - 0) < 2 ^ 64
    omega
  have hloop : AllMeet conf (readAtomLoop env conf fuel .top env.size (opened env conf start mem)).2 →
      Outcome (fun _ => True) fuel (opened env conf start mem)
        (readAtomLoop env conf fuel .top env.size (opened env conf start mem)) :=
    loop_top env conf fuel hsound.contained (.inl hsound)
  have hread : readAtom env conf fuel .top env.size (opened env conf start mem) =
      readAtomLoop env conf fuel .top env.size (opened env conf start mem) := by
    show readAtomLoop env conf fuel .top (ptr 0 env.size) _ = _
    rw [ptr_eq (by omega), Nat.zero_add]
  unfold process at hmeets ⊢
  rw [hread] at hmeets ⊢
  generalize readAtomLoop env conf fuel .top env.size (opened env conf start mem) = r at hloop hmeets ⊢
  obtain ⟨rc, s⟩ := r
  cases rc with
  | none =>
    have hdone := hloop hmeets
    exact ⟨hdone.contained, fun hfuel => hdone.returns (by show env.size - 0 < fuel; omega)⟩
  | some rc =>
    cases rc with
    | error => exact ⟨(hloop hmeets).contained, fun _ => nofun⟩
    | declined => exact ⟨(hloop hmeets).contained, fun _ => nofun⟩
    | ok =>
      dsimp only at hmeets ⊢
      rw [finish_trace] at hmeets ⊢
      exact ⟨(hloop hmeets).contained, fun _ => nofun⟩

-- A file that is read without failures, with memory for what is allocated
def fileEnv (bs : Bytes) (h : bs.length < 2 ^ 63) : Env where
  size := bs.length
  size_lt := h
  pread := fun offset n => some ((bs.drop offset).take n)
  palloc := fun call n => if hn : n < 2 ^ 20 then some ⟨2 ^ 20 * (call + 1) % 2 ^ 62, by omega⟩ else none
  moovAtomHeader := 1000
  mdatAtomHeader := 1008
  stscChunkEntry := fun i => 2000 + 12 * i

def words (ns : List Nat) : Bytes := ns.flatMap fun n => (encode 4 n).reverse

def atom (name : String) (data : Bytes) : Bytes := words [8 + data.length] ++ ngxString name ++ data

-- One sample of seven bytes in one chunk, with the moov atom at the end
def smallFile : Bytes :=
  atom "mdat" (List.replicate 7 1) ++
    atom "moov" (atom "trak" (atom "mdia" (atom "minf" (atom "stbl"
      (atom "stts" (words [0, 1, 1, 1000]) ++ atom "stsc" (words [0, 1, 1, 1, 1]) ++ atom "stco" (words [0, 1, 8]))))))

theorem process_bounded_small :
    Contained (process (fileEnv smallFile (by decide +kernel)) ⟨64, 256⟩ 128 0 fun _ => 0).2.trace ∧
      ((fileEnv smallFile (by decide +kernel)).size < 128 →
        (process (fileEnv smallFile (by decide +kernel)) ⟨64, 256⟩ 128 0 fun _ => 0).1 ≠ none) :=
  process_bounded (fileEnv smallFile (by decide +kernel)) ⟨64, 256⟩ 128 0 (fun _ => 0) (by decide +kernel)

example : (process (fileEnv smallFile (by decide +kernel)) ⟨64, 256⟩ 128 0 fun _ => 0).1 = some .ok := by decide +kernel

theorem readFor_hit (table : Table) {s : St} {size : Nat} (hin : s.bufferPos + size ≤ s.bufferEnd) :
    readFor env table s size = (.ok, s.log (.read table s.toFile size)) := by
  unfold readFor read
  rw [if_pos (by exact hin)]

-- The header of an atom with a 64-bit size of zero does not lead anywhere.
theorem zeroSize_header (table : Table) {stop : Nat} {s : St} (hin : s.bufferPos + 16 ≤ s.bufferEnd)
    (hlt : s.offset < stop) (hone : get32 s.mem s.bufferPos = 1) (hzero : get64 s.mem (s.bufferPos + 8) = 0) :
    ∃ trace, readHeader env table stop s = (.inr (0, 16), { s with trace := trace }) := by
  unfold readHeader
  rw [readFor_hit env table (by omega)]
  dsimp only [St.log]
  rw [if_neg (by omega), if_pos (by omega), if_pos hone, readFor_hit env table (by exact hin)]
  dsimp only [St.log]
  rw [hzero]
  unfold checkAtom
  rw [readFor_hit env table (by show s.bufferPos + 8 ≤ s.bufferEnd; omega)]
  dsimp only [St.log]
  rw [if_neg (by omega)]
  exact ⟨_, rfl⟩

theorem zeroSize_loops (table : Table) {stop : Nat} (fuel : Nat) {s : St} (hin : s.bufferPos + 16 ≤ s.bufferEnd)
    (hpos : s.bufferPos < 2 ^ 64) (hoffset : s.offset < 2 ^ 64) (hlt : s.offset < stop)
    (hone : get32 s.mem s.bufferPos = 1) (hname : load s.mem (s.bufferPos + 4) 4 = ngxString "free")
    (hzero : get64 s.mem (s.bufferPos + 8) = 0) : (readAtomLoop env conf fuel table stop s).1 = none := by
  have hfind : table.find (ngxString "free") = none := by
    cases table <;> decide
  induction fuel generalizing s with
  | zero => rfl
  | succ fuel ih =>
    obtain ⟨trace, hheader⟩ := zeroSize_header env table hin hlt hone hzero
    have hstay : ptr s.bufferPos 0 = s.bufferPos := ptr_eq hpos
    have hstay' : ptr s.offset 0 = s.offset := ptr_eq hoffset
    unfold readAtomLoop
    rw [if_pos hlt, hheader]
    dsimp only
    rw [hname, hfind]
    refine ih ?_ ?_ ?_ ?_ ?_ ?_ ?_
    · show ptr s.bufferPos 0 + 16 ≤ s.bufferEnd
      rw [hstay]
      exact hin
    · show ptr s.bufferPos 0 < 2 ^ 64
      rw [hstay]
      exact hpos
    · show ptr s.offset 0 < 2 ^ 64
      rw [hstay']
      exact hoffset
    · show ptr s.offset 0 < stop
      rw [hstay']
      exact hlt
    · show get32 s.mem (ptr s.bufferPos 0) = 1
      rw [hstay]
      exact hone
    · show load s.mem (ptr s.bufferPos 0 + 4) 4 = ngxString "free"
      rw [hstay]
      exact hname
    · show get64 s.mem (ptr s.bufferPos 0 + 8) = 0
      rw [hstay]
      exact hzero

-- A file that is this header
def loopFile : Bytes := words [1] ++ ngxString "free" ++ words [0, 0]

-- The header of a trak is in the buffer, and its data is not.
def cutFile : Bytes := atom "mdat" [] ++ atom "moov" (atom "trak" (List.replicate 16 0))

-- Two bytes behind the last atom in moov
def strayFile : Bytes := atom "mdat" [] ++ atom "moov" (atom "trak" (atom "free" []) ++ [0, 0]) ++ atom "free" []

theorem loopFile_loops (fuel : Nat) :
    (process (fileEnv loopFile (by decide)) ⟨16, 16⟩ fuel 0 fun _ => 0).1 = none := by
  have hloop : ∀ fuel, (readAtomLoop (fileEnv loopFile (by decide)) ⟨16, 16⟩ fuel .top 16
      (opened (fileEnv loopFile (by decide +kernel)) ⟨16, 16⟩ 0 fun _ => 0)).1 = none := by
    intro fuel
    cases fuel with
    | zero => rfl
    | succ fuel =>
      -- the first turn fills the buffer
      have hheader : readHeader (fileEnv loopFile (by decide)) .top 16
          (opened (fileEnv loopFile (by decide)) ⟨16, 16⟩ 0 fun _ => 0) =
          (.inr (0, 16), (readHeader (fileEnv loopFile (by decide)) .top 16
            (opened (fileEnv loopFile (by decide +kernel)) ⟨16, 16⟩ 0 fun _ => 0)).2) :=
        Prod.ext (by decide +kernel) rfl
      have hname : Table.top.find (load (readHeader (fileEnv loopFile (by decide +kernel)) .top 16
          (opened (fileEnv loopFile (by decide)) ⟨16, 16⟩ 0 fun _ => 0)).2.mem
          ((readHeader (fileEnv loopFile (by decide +kernel)) .top 16
            (opened (fileEnv loopFile (by decide +kernel)) ⟨16, 16⟩ 0 fun _ => 0)).2.bufferPos + 4) 4) = none := by
        decide +kernel
      unfold readAtomLoop
      rw [if_pos (by decide +kernel), hheader]
      dsimp only
      rw [hname]
      exact zeroSize_loops _ _ .top fuel (by decide +kernel) (by decide +kernel) (by decide +kernel) (by decide +kernel)
        (by decide +kernel) (by decide +kernel) (by decide +kernel)
  have hread := hloop fuel
  unfold process readAtom
  rw [show ptr (opened (fileEnv loopFile (by decide +kernel)) ⟨16, 16⟩ 0 fun _ => 0).offset
    (fileEnv loopFile (by decide +kernel)).size = 16 from by decide]
  generalize readAtomLoop _ _ fuel .top 16 _ = r at hread ⊢
  obtain ⟨rc, s⟩ := r
  obtain rfl : rc = none := hread
  rfl

-- Without the conditions: a run that does not end, a handler that is called for data outside of the buffer, and a
-- read that overwrites the header of a trak
theorem bounded_not_always :
    ¬(∃ fuel, (process (fileEnv loopFile (by decide)) ⟨16, 16⟩ fuel 0 fun _ => 0).1 ≠ none) ∧
      ¬Contained (process (fileEnv cutFile (by decide)) ⟨32, 64⟩ 64 0 fun _ => 0).2.trace ∧
      ¬Contained (process (fileEnv strayFile (by decide +kernel)) ⟨16, 64⟩ 64 0 fun _ => 0).2.trace :=
  ⟨fun ⟨fuel, hne⟩ => hne (loopFile_loops fuel), by decide +kernel, by decide +kernel⟩

end Nginx.Mp4
