import Nginx.Http.Mp4.Update

namespace Nginx.Mp4

open ByteMemory

-- No buf that points into the mp4 buffer is there.
def File.Fresh (f : File) : Prop := f.mvhdAtom = none ∧ f.trak = []

instance (f : File) : Decidable f.Fresh := inferInstanceAs (Decidable (_ ∧ _))

-- Where the last bytes of the file were put, and which they are
def lastFill : List Event → Option (Nat × Nat)
  | [] => none
  | .fill _ dst offset _ :: _ => some (dst, offset)
  | _ :: trace => lastFill trace

-- The byte that buffer_pos points to is the one of the file at the offset.
def Synced (trace : List Event) (f : File) : Prop :=
  match lastFill trace with
  | none => False
  | some (dst, offset) => f.bufferPos + offset = f.offset + dst

instance (trace : List Event) (f : File) : Decidable (Synced trace f) := by
  unfold Synced
  cases lastFill trace with
  | none => exact instDecidableFalse
  | some at' => exact inferInstanceAs (Decidable (_ = _))

-- A buf and the n bytes from dst on have no byte in common.
def Buf.Apart (b : Buf) (dst n : Nat) : Prop := min b.last (dst + n) ≤ max b.pos dst

instance (b : Buf) (dst n : Nat) : Decidable (b.Apart dst n) := inferInstanceAs (Decidable (_ ≤ _))

theorem Buf.apart_of_le {b : Buf} {dst : Nat} (n : Nat) (h : b.last ≤ dst) : b.Apart dst n := by
  unfold Buf.Apart
  omega

-- The data of an atom that a handler is called for lies in the file, and inside moov it lies in the buffer. Bytes of
-- the file are not put where a buf points to.
def Event.Contained (earlier : List Event) : Event → Prop
  | .call table _ f n =>
    f.offset + n ≤ f.fileEnd ∧ Synced earlier f ∧
      (table ≠ .top → f.bufferStart ≤ f.bufferPos ∧ f.bufferPos + n ≤ f.bufferEnd)
  | .fill f dst _ n => ∀ b ∈ f.recorded, b.Apart dst n
  | _ => True

instance (earlier : List Event) (e : Event) : Decidable (e.Contained earlier) := by
  cases e with
  | call table h f n => exact inferInstanceAs (Decidable (_ ∧ _ ∧ (_ → _ ∧ _)))
  | fill f dst offset n => exact inferInstanceAs (Decidable (∀ b ∈ f.recorded, b.Apart dst n))
  | size64 n => exact instDecidableTrue
  | read table f n => exact instDecidableTrue

def Contained : List Event → Prop
  | [] => True
  | e :: trace => e.Contained trace ∧ Contained trace

instance decidableContained : (trace : List Event) → Decidable (Contained trace)
  | [] => instDecidableTrue
  | _ :: trace => @instDecidableAnd _ _ _ (decidableContained trace)

-- A moov atom is declined, or too large, or the first one that has something for the response. Then it is read
-- as a whole, or is in the buffer already, or its first size is not there.
def MoovMeets (conf : Conf) (f : File) (n : Nat) : Prop :=
  f.mdatAtom = none ∧ f.start = 0 ∨ f.bufferSize < n ∧ conf.maxBufferSize < n ∨
    f.Fresh ∧ (f.bufferSize < n ∨ f.bufferPos + n ≤ f.bufferEnd ∨ f.bufferEnd < f.bufferPos + 4)

instance (conf : Conf) (f : File) (n : Nat) : Decidable (MoovMeets conf f n) :=
  inferInstanceAs (Decidable (_ ∧ _ ∨ _ ∧ _ ∨ _ ∧ (_ ∨ _ ∨ _)))

-- A 64-bit size counts its header, and inside moov the headers are in the buffer once something is recorded.
def Event.Meets (conf : Conf) : Event → Prop
  | .size64 n => 16 ≤ n
  | .read table f size => table = .top ∨ f.Fresh ∨ f.bufferPos + size ≤ f.bufferEnd
  | .call _ h f n => h = .moov → MoovMeets conf f n
  | .fill .. => True

instance (conf : Conf) (e : Event) : Decidable (e.Meets conf) := by
  cases e with
  | size64 n => exact inferInstanceAs (Decidable (_ ≤ _))
  | read table f size => exact inferInstanceAs (Decidable (_ ∨ _ ∨ _))
  | call table h f n => exact inferInstanceAs (Decidable (_ → _))
  | fill f dst offset n => exact instDecidableTrue

-- All bufs end at or before an address.
def Within (limit : Nat) (bufs : List Buf) : Prop := ∀ b ∈ bufs, b.last ≤ limit

theorem Within.mono {limit limit' : Nat} {bufs : List Buf} (h : Within limit bufs) (hle : limit ≤ limit') :
    Within limit' bufs := fun b hb => Nat.le_trans (h b hb) hle

theorem File.Fresh.within {f : File} (h : f.Fresh) (limit : Nat) : Within limit f.recorded := by
  intro b hb
  rw [File.recorded, h.1, h.2] at hb
  exact absurd hb List.not_mem_nil

theorem within_recorded (limit : Nat) (f : File) :
    Within limit f.recorded ↔ Within limit f.mvhdAtom.toList ∧ ∀ t ∈ f.trak, Within limit t.bufs := by
  simp only [Within, File.recorded, List.mem_append, List.mem_flatMap]
  constructor
  · intro h
    exact ⟨fun b hb => h b (.inl hb), fun t ht b hb => h b (.inr ⟨t, ht, hb⟩)⟩
  · rintro ⟨hmvhd, htrak⟩ b (hb | ⟨t, ht, hb⟩)
    · exact hmvhd b hb
    · exact htrak t ht b hb

variable {limit : Nat} {t : Trak} {k : TrakAtom} {pos last : Nat}

theorem mem_bufs (b : Buf) : b ∈ t.bufs ↔ ∃ k, t.out k = true ∧ t.buf k = b := by
  have hall : ∀ k, k ∈ TrakAtom.all := by
    intro k
    cases k <;> decide
  simp [Trak.bufs, hall]

theorem within_put (h : Within limit t.bufs) (hlast : last ≤ limit) : Within limit (t.put k pos last).bufs := by
  intro b hb
  obtain ⟨j, hout, rfl⟩ := (mem_bufs b).mp hb
  by_cases hj : j = k
  · subst hj
    simpa [Trak.put, Trak.set, Trak.link] using hlast
  · have hold : t.out j = true := by simpa [Trak.put, Trak.set, Trak.link, Function.update_of_ne hj] using hout
    have hbuf : (t.put k pos last).buf j = t.buf j := by simp [Trak.put, Trak.set, Trak.link, Function.update_of_ne hj]
    rw [hbuf]
    exact h _ ((mem_bufs _).mpr ⟨j, hold, rfl⟩)

theorem within_lastTrak {s : St} {f : Trak → Trak} (hf : ∀ t, Within limit t.bufs → Within limit (f t).bufs)
    (h : Within limit s.recorded) : Within limit (s.lastTrak f).recorded := by
  rw [within_recorded] at h ⊢
  refine ⟨h.1, fun t ht => ?_⟩
  obtain ⟨i, hi, rfl⟩ := List.getElem_of_mem ht
  rw [St.lastTrak, List.length_modify] at hi
  simp only [St.lastTrak, List.getElem_modify]
  split
  · exact hf _ (h.2 _ (List.getElem_mem _))
  · exact h.2 _ (List.getElem_mem _)

theorem lastTrak_lastTrak (s : St) (f g : Trak → Trak) : (s.lastTrak f).lastTrak g = s.lastTrak (g ∘ f) := by
  simp only [St.lastTrak, List.length_modify, List.modify_modify_eq]

theorem ptr_le (p n : Nat) : ptr p n ≤ p + n := Nat.mod_le _ _

theorem ptr_eq {p n : Nat} (h : p + n < 2 ^ 64) : ptr p n = p + n := Nat.mod_eq_of_lt h

-- The buf of a whole atom ends with the atom.
theorem atom_last_le {p : Nat} (n : Nat) (h : 8 ≤ p) : ptr (p - 8) (ptr 8 n) ≤ p + n := by
  have houter := ptr_le (p - 8) (ptr 8 n)
  have hinner := ptr_le 8 n
  omega

-- From a state to one behind n bytes of the buffer
structure Moves (n : Nat) (s s' : St) : Prop where
  buffer : s'.buffer = s.buffer
  bufferStart : s'.bufferStart = s.bufferStart
  bufferEnd : s'.bufferEnd = s.bufferEnd
  bufferSize : s'.bufferSize = s.bufferSize
  fileEnd : s'.fileEnd = s.fileEnd
  trace : s'.trace = s.trace
  bufferPos : s'.bufferPos = ptr s.bufferPos n
  offset : s'.offset = ptr s.offset n
  trak : s.trak.length ≤ s'.trak.length
  mvhd : s'.mvhdAtom = none → s.mvhdAtom = none

theorem atomNext_moves (n : Nat) (s : St) : Moves n s (s.atomNext n) :=
  ⟨rfl, rfl, rfl, rfl, rfl, rfl, rfl, rfl, Nat.le_refl _, id⟩

-- A handler that reads no atoms: it consumes the data and records bufs of it, or fails, or declines the trak.
structure Leaf (n : Nat) (s : St) (r : Rc × St) : Prop where
  trace : r.2.trace = s.trace
  moves : r.1 = .ok → Moves n s r.2
  within : r.1 = .ok → 8 ≤ s.bufferPos → Within (s.bufferPos + n) s.recorded → Within (s.bufferPos + n) r.2.recorded
  declined : r.1 = .declined → ∃ mem, r.2 = { s with mem := mem }

theorem Leaf.error {n : Nat} {s s' : St} (h : s'.trace = s.trace) : Leaf n s (.error, s') :=
  ⟨h, nofun, nofun, nofun⟩

theorem Leaf.lastTrak {n : Nat} {s : St} {mem : Memory} {f : Trak → Trak}
    (hf : 8 ≤ s.bufferPos → ∀ t, Within (s.bufferPos + n) t.bufs → Within (s.bufferPos + n) (f t).bufs) :
    Leaf n s (.ok, ({ s with mem := mem }.lastTrak f).atomNext n) where
  trace := rfl
  moves := fun _ => ⟨rfl, rfl, rfl, rfl, rfl, rfl, rfl, rfl, by simp [St.atomNext, St.lastTrak], id⟩
  within := fun _ hpos h => within_lastTrak (s := { s with mem := mem }) (hf hpos) h
  declined := nofun

variable {n : Nat} {s : St}

theorem readMvhdAtom_leaf (n : Nat) (s : St) : Leaf n s (readMvhdAtom n s) := by
  unfold readMvhdAtom readDurationAtom
  dsimp only
  split
  · exact .error rfl
  split
  · exact .error rfl
  refine ⟨rfl, fun _ => ⟨rfl, rfl, rfl, rfl, rfl, rfl, rfl, rfl, Nat.le_refl _, nofun⟩, fun _ hpos h => ?_, nofun⟩
  rw [within_recorded] at h ⊢
  refine ⟨fun b hb => ?_, h.2⟩
  obtain rfl := List.mem_singleton.mp hb
  exact atom_last_le n hpos

-- tkhd and mdhd record a buf of the whole atom.
theorem readDurationAtom_leaf (a : DurationAtom) (timescale : St → Nat → Bool → Nat) (count : Nat → Nat → Trak → Trak)
    (k : TrakAtom) (hcount : ∀ size scale t, (count size scale t).bufs = t.bufs) :
    Leaf n s
      (readDurationAtom a timescale
        (fun header size scale s => s.lastTrak fun t => (count size scale t).put k header (ptr header size)) n s) := by
  unfold readDurationAtom
  dsimp only
  split
  · exact .error rfl
  split
  · exact .error rfl
  refine Leaf.lastTrak fun hpos t h => within_put ?_ (atom_last_le n hpos)
  rw [hcount]
  exact h

theorem copyAtom_leaf (name : Bytes) (k : TrakAtom) (count : Nat → Trak → Trak)
    (hcount : ∀ size t, (count size t).bufs = t.bufs) : Leaf n s (copyAtom name k count n s) := by
  refine Leaf.lastTrak fun hpos t h => within_put ?_ (atom_last_le n hpos)
  rw [hcount]
  exact h

theorem readStsdAtom_leaf (n : Nat) (s : St) : Leaf n s (readStsdAtom n s) := by
  unfold readStsdAtom
  dsimp only
  split
  · exact .error rfl
  split
  · exact ⟨rfl, nofun, nofun, fun _ => ⟨_, rfl⟩⟩
  · exact Leaf.lastTrak fun hpos t h => within_put h (atom_last_le n hpos)

-- The table that has been checked ends with the data at the latest.
theorem table_within (a : TableAtom) {header entries : Nat} (h : Within limit t.bufs)
    (hlimit : header + 16 + entries * a.entrySize ≤ limit) : Within limit (a.table header entries t).bufs :=
  within_put h hlimit

theorem readTableAtom_leaf (a : TableAtom) (hset : ∀ n t, (a.setEntries n t).bufs = t.bufs) :
    Leaf n s (readTableAtom a n s) := by
  unfold readTableAtom
  dsimp only
  split
  · exact .error rfl
  split
  · exact .error rfl
  rename_i htable
  refine Leaf.lastTrak fun hpos t h => table_within a (within_put ?_ (by omega)) (by omega)
  rw [hset]
  exact h

theorem readTableAtomEarly_leaf (a : TableAtom) (hset : ∀ n t, (a.setEntries n t).bufs = t.bufs) :
    Leaf n s (readTableAtomEarly a n s) := by
  unfold readTableAtomEarly
  dsimp only
  split
  · exact .error rfl
  split
  · exact .error rfl
  rename_i htable
  rw [lastTrak_lastTrak]
  refine Leaf.lastTrak fun hpos t h => table_within a (within_put (k := a.atom) ?_ (by omega)) (by omega)
  rw [hset]
  exact h

theorem readStszAtom_leaf (n : Nat) (s : St) : Leaf n s (readStszAtom n s) := by
  unfold readStszAtom
  dsimp only
  split
  · exact .error rfl
  split
  · split
    · exact .error rfl
    rename_i htable
    rw [lastTrak_lastTrak]
    exact Leaf.lastTrak fun hpos t h => within_put (within_put h (by omega)) (by omega)
  · have htail : ∀ f g : Trak → Trak, ∀ mem mem' : Memory,
        ({ ({ s with mem := mem }.lastTrak f) with mem := mem' }).lastTrak g =
          { s with mem := mem' }.lastTrak (g ∘ f) := by
      intro f g mem mem'
      exact lastTrak_lastTrak { s with mem := mem' } f g
    rw [htail]
    exact Leaf.lastTrak fun hpos t h => within_put h (by omega)

-- The handlers inside moov: those that read no atoms, trak, and those of the other containers
theorem handle_inside (env : Env) (conf : Conf) (readAtom : ReadAtom) {h : Handler} (n : Nat) (s : St)
    (hftyp : h ≠ .ftyp) (hmoov : h ≠ .moov) (hmdat : h ≠ .mdat) :
    (∃ r, handle env conf readAtom h n s = leaf r ∧ Leaf n s r) ∨
      handle env conf readAtom h n s = readTrakAtom readAtom n s ∨
      ∃ name k table, table ≠ .top ∧ handle env conf readAtom h n s = containerAtom name k table readAtom n s := by
  cases h with
  | ftyp => exact absurd rfl hftyp
  | moov => exact absurd rfl hmoov
  | mdat => exact absurd rfl hmdat
  | trak => exact .inr (.inl rfl)
  | mdia => exact .inr (.inr ⟨_, _, .mdia, by decide, rfl⟩)
  | minf => exact .inr (.inr ⟨_, _, .minf, by decide, rfl⟩)
  | stbl => exact .inr (.inr ⟨_, _, .stbl, by decide, rfl⟩)
  | mvhd => exact .inl ⟨_, rfl, readMvhdAtom_leaf n s⟩
  | cmov => exact .inl ⟨(.error, s), rfl, .error rfl⟩
  | tkhd => exact .inl ⟨_, rfl, readDurationAtom_leaf _ _ (fun size _ t => { t with tkhdSize := size }) _ fun _ _ _ => rfl⟩
  | mdhd =>
    exact .inl ⟨_, rfl, readDurationAtom_leaf _ _ (fun size scale t => { t with mdhdSize := size, timescale := scale }) _
      fun _ _ _ => rfl⟩
  | hdlr => exact .inl ⟨_, rfl, copyAtom_leaf _ _ _ fun _ _ => rfl⟩
  | vmhd => exact .inl ⟨_, rfl, copyAtom_leaf _ _ _ fun _ _ => rfl⟩
  | smhd => exact .inl ⟨_, rfl, copyAtom_leaf _ _ _ fun _ _ => rfl⟩
  | dinf => exact .inl ⟨_, rfl, copyAtom_leaf _ _ _ fun _ _ => rfl⟩
  | stsd => exact .inl ⟨_, rfl, readStsdAtom_leaf n s⟩
  | stts => exact .inl ⟨_, rfl, readTableAtom_leaf _ fun _ _ => rfl⟩
  | stss => exact .inl ⟨_, rfl, readTableAtomEarly_leaf _ fun _ _ => rfl⟩
  | ctts => exact .inl ⟨_, rfl, readTableAtomEarly_leaf _ fun _ _ => rfl⟩
  | stsc => exact .inl ⟨_, rfl, readTableAtom_leaf _ fun _ _ => rfl⟩
  | stsz => exact .inl ⟨_, rfl, readStszAtom_leaf n s⟩
  | stco => exact .inl ⟨_, rfl, readTableAtom_leaf _ fun _ _ => rfl⟩
  | co64 => exact .inl ⟨_, rfl, readTableAtom_leaf _ fun _ _ => rfl⟩

-- Which handlers the tables hold
theorem find_top {name : Bytes} {h : Handler} (hfind : Table.top.find name = some h) :
    h = .ftyp ∨ h = .moov ∨ h = .mdat := by
  obtain ⟨a, ha, rfl⟩ := Option.map_eq_some_iff.mp hfind
  have hmem := List.mem_of_find?_eq_some ha
  simp only [Table.atoms, List.mem_cons, List.not_mem_nil, or_false] at hmem
  rcases hmem with rfl | rfl | rfl
  · exact .inl rfl
  · exact .inr (.inl rfl)
  · exact .inr (.inr rfl)

theorem find_inside {table : Table} {name : Bytes} {h : Handler} (htable : table ≠ .top)
    (hfind : table.find name = some h) : h ≠ .ftyp ∧ h ≠ .moov ∧ h ≠ .mdat := by
  obtain ⟨a, ha, rfl⟩ := Option.map_eq_some_iff.mp hfind
  have hmem := List.mem_of_find?_eq_some ha
  have hall : ∀ a ∈ table.atoms, a.2 ≠ .ftyp ∧ a.2 ≠ .moov ∧ a.2 ≠ .mdat := by
    cases table with
    | top => exact absurd rfl htable
    | moov => simp [Table.atoms]
    | trak => simp [Table.atoms]
    | mdia => simp [Table.atoms]
    | minf => simp [Table.atoms]
    | stbl => simp [Table.atoms]
  exact hall a hmem

end Nginx.Mp4
