import Nginx.Core.ConfFile

namespace Nginx.ConfFile

-- The text behind b->pos
structure Conf.Before (f : Conf) (text : Bytes) : Prop where
  pos : f.pos ≤ f.buf.length
  size : f.buf.length ≤ bufferSize
  offset : f.offset ≤ f.file.length
  text : f.buf.drop f.pos ++ f.file.drop f.offset = text

theorem Conf.Before.left {f : Conf} {text : Bytes} (h : f.Before text) : f.left = text.length := by
  rw [← h.text, List.length_append, List.length_drop, List.length_drop]
  rfl

theorem Conf.opened_before (file : Bytes) : (Conf.opened file).Before file :=
  ⟨Nat.le_refl _, Nat.zero_le _, Nat.zero_le _, rfl⟩

-- What stands between start and b->pos
def Conf.raw (f : Conf) (start : Nat) : Bytes := (f.buf.take f.pos).drop start

theorem Conf.raw_length {f : Conf} {text : Bytes} (h : f.Before text) (start : Nat) :
    (f.raw start).length = f.pos - start := by
  rw [Conf.raw, List.length_drop, List.length_take, Nat.min_eq_left h.pos]

theorem refill_eof {f : Conf} (h : f.Before []) (start : Nat) (flags : Flags) (nelts : Nat) :
    refill f start flags nelts = .inl (if nelts > 0 then .error .eof else .fileDone) := by
  have hleft := h.left
  rw [Conf.left, List.length_nil] at hleft
  rw [refill, if_pos (by omega), if_pos (by have hoffset := h.offset; omega)]

-- The buffer is full with what stands between start and b->pos.
theorem refill_tooLong {f : Conf} {c : UInt8} {text : Bytes} (h : f.Before (c :: text)) (start : Nat) (flags : Flags)
    (nelts : Nat) (hlen : f.pos - start = bufferSize) :
    refill f start flags nelts =
      .inl (.error (.tooLong (if flags.dQuoted then some 34 else if flags.sQuoted then some 39 else none))) := by
  have hleft := h.left
  have hpos := h.pos
  have hsize := h.size
  rw [Conf.left, List.length_cons] at hleft
  rw [refill, if_pos (by omega), if_neg (by omega)]
  dsimp only
  rw [if_pos hlen]

-- Otherwise the next byte stands at b->pos, and what stands between start and b->pos is kept.
theorem refill_next {f : Conf} {c : UInt8} {text : Bytes} (h : f.Before (c :: text)) (start : Nat) (flags : Flags)
    (nelts : Nat) (hstart : start ≤ f.pos) (hlen : f.pos - start ≠ bufferSize) :
    ∃ f' start', refill f start flags nelts = .inr (f', start') ∧ f'.Before (c :: text) ∧ f'.pos < f'.buf.length ∧
      start' ≤ f'.pos ∧ f'.raw start' = f.raw start := by
  have hpos := h.pos
  have hsize := h.size
  have htext := h.text
  by_cases hmore : f.pos ≥ f.buf.length
  · have hdrop : f.buf.drop f.pos = [] := List.drop_eq_nil_of_le hmore
    rw [hdrop, List.nil_append] at htext
    have hrest : (f.file.drop f.offset).length = text.length + 1 := by rw [htext, List.length_cons]
    rw [List.length_drop] at hrest
    have hkept : ((f.buf.drop start).take (f.pos - start)).length = f.pos - start := by
      rw [List.length_take, List.length_drop]
      omega
    have hchunk : ((f.file.drop f.offset).take (min (f.file.length - f.offset) (bufferSize - (f.pos - start)))).length =
        min (f.file.length - f.offset) (bufferSize - (f.pos - start)) := by
      rw [List.length_take, List.length_drop]
      omega
    refine ⟨{ f with
      buf := (f.buf.drop start).take (f.pos - start) ++
        (f.file.drop f.offset).take (min (f.file.length - f.offset) (bufferSize - (f.pos - start)))
      offset := f.offset + min (f.file.length - f.offset) (bufferSize - (f.pos - start))
      pos := f.pos - start }, 0, ?_, ⟨?_, ?_, ?_, ?_⟩, ?_, Nat.zero_le _, ?_⟩
    · rw [refill, if_pos hmore, if_neg (by omega)]
      dsimp only
      rw [if_neg hlen]
    · dsimp only
      rw [List.length_append, hkept]
      omega
    · dsimp only
      rw [List.length_append, hkept, hchunk]
      omega
    · dsimp only
      omega
    · dsimp only
      rw [List.drop_append, List.drop_eq_nil_of_le (by omega), List.nil_append, hkept, Nat.sub_self, List.drop_zero,
        ← List.drop_drop, List.take_append_drop, htext]
    · dsimp only
      rw [List.length_append, hkept, hchunk]
      omega
    · rw [Conf.raw, Conf.raw]
      dsimp only
      rw [List.drop_zero, List.take_append_of_le_length (by omega), List.take_of_length_le (by omega), List.drop_take]
  · exact ⟨f, start, by rw [refill, if_neg hmore], h, by omega, hstart, rfl⟩

-- ch = *b->pos++
theorem Conf.read {f : Conf} {c : UInt8} {text : Bytes} (h : f.Before (c :: text)) (hpos : f.pos < f.buf.length)
    {start : Nat} (hstart : start ≤ f.pos) :
    f.buf.getD f.pos 0 = c ∧ Conf.Before { f with pos := f.pos + 1 } text ∧
      Conf.raw { f with pos := f.pos + 1 } start = f.raw start ++ [c] := by
  have htext := h.text
  rw [List.drop_eq_getElem_cons hpos, List.cons_append] at htext
  obtain ⟨hc, hrest⟩ := List.cons.inj htext
  refine ⟨?_, ⟨hpos, h.size, h.offset, hrest⟩, ?_⟩
  · rw [List.getD_eq_getElem?_getD, List.getElem?_eq_getElem hpos, Option.getD_some, hc]
  · rw [Conf.raw, Conf.raw]
    dsimp only
    rw [List.take_succ_eq_append_getElem hpos, hc, List.drop_append_of_le_length]
    rw [List.length_take]
    omega

theorem copyWord_plain {c : UInt8} (hc : c ≠ 92) (d : UInt8) (text : Bytes) :
    copyWord (c :: d :: text) = c :: copyWord (d :: text) := by
  rw [copyWord, if_neg (fun h => hc h.1), if_neg (fun h => hc h.1), if_neg (fun h => hc h.1), if_neg (fun h => hc h.1)]

-- What a word that begins with these bytes is copied to
def Copies (raw word : Bytes) : Prop := ∀ c text, copyWord (raw ++ c :: text) = word ++ copyWord (c :: text)

theorem Copies.nil : Copies [] [] := fun _ _ => rfl

theorem Copies.word {raw word : Bytes} (h : Copies raw word) (c : UInt8) : copyWord (raw ++ [c]) = word := by
  rw [h c []]
  exact List.append_nil word

theorem Copies.plain {raw word : Bytes} (h : Copies raw word) {c : UInt8} (hc : c ≠ 92) : Copies (raw ++ [c]) (word ++ [c]) := by
  intro d text
  rw [List.append_assoc, List.singleton_append, h c (d :: text), copyWord_plain hc, List.append_assoc]
  rfl

theorem Copies.escaped {raw word : Bytes} (h : Copies raw word) (c : UInt8) :
    Copies (raw ++ [92] ++ [c]) (word ++ escape c) := by
  intro d text
  have hcopy : copyWord (92 :: c :: d :: text) = escape c ++ copyWord (d :: text) := by
    rw [copyWord, escape]
    by_cases hself : c = 34 ∨ c = 39 ∨ c = 92
    · rw [if_pos ⟨rfl, hself⟩, if_pos hself]
      rfl
    · rw [if_neg (fun h => hself h.2), if_neg hself]
      by_cases htab : c = 116
      · rw [if_pos ⟨rfl, htab⟩, if_pos htab]
        rfl
      · rw [if_neg (fun h => htab h.2), if_neg htab]
        by_cases hreturn : c = 114
        · rw [if_pos ⟨rfl, hreturn⟩, if_pos hreturn]
          rfl
        · rw [if_neg (fun h => hreturn h.2), if_neg hreturn]
          by_cases hline : c = 110
          · rw [if_pos ⟨rfl, hline⟩, if_pos hline]
            rfl
          · rw [if_neg (fun h => hline h.2), if_neg hline]
            rw [copyWord_plain (fun heq => hself (Or.inr (Or.inr heq)))]
            rfl
  have hassoc : raw ++ [92] ++ [c] ++ d :: text = raw ++ 92 :: c :: d :: text := by simp
  rw [hassoc, h 92, hcopy, List.append_assoc]

end Nginx.ConfFile
