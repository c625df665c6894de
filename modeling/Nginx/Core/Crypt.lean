import Nginx.Core.Base64
import Nginx.Core.Md5

namespace Nginx.Crypt

open Base64 Digest

-- A NUL-terminated string in memory: what stands in front of the NUL
structure CStr where
  text : Bytes
  nul : 0 ∉ text
  small : text.length < 2 ^ 63

-- The objects that the functions read and write: what they are given, their own blocks and arrays, and a literal
inductive Region
  | password
  | entry
  | decoded
  | encrypted
  | final
  | magic
  deriving DecidableEq

inductive Access
  | read (region : Region) (pos len : ℕ)
  | write (region : Region) (pos len : ℕ)

-- The write is in one of the function's own objects, and every access within its object.
def Access.Inside (size : Region → ℕ) : Access → Prop
  | .read region pos len => pos + len ≤ size region
  | .write region pos len =>
      (region = .decoded ∨ region = .encrypted ∨ region = .final) ∧ pos + len ≤ size region

-- A piece of memory that is handed to ngx_md5_update
structure Chunk where
  region : Region
  pos : ℕ
  data : Bytes

def Chunk.access (c : Chunk) : Access := .read c.region c.pos c.data.length

-- The calls from ngx_md5_init to ngx_md5_final; buffer is what the context holds at first.
def digest (buffer : Bytes) (chunks : List Chunk) : Bytes :=
  md5Final (chunks.foldl (fun ctx c => md5Update ctx c.data) (md5Init buffer))

def magic : Bytes := ngxString "$apr1$"

-- for (p = salt; *p && *p != '$' && p < last; p++), with n for last - p
def saltLoop : ℕ → Bytes → Bytes
  | n + 1, c :: p => if c ≠ 0 ∧ c ≠ 36 then c :: saltLoop n p else []
  | _, _ => []

def apr1Salt (entry : CStr) : Bytes := saltLoop 8 (entry.text.drop 6)

def keyChunk (key : CStr) : Chunk := ⟨.password, 0, key.text⟩

def saltChunk (entry : CStr) : Chunk := ⟨.entry, 6, apr1Salt entry⟩

-- for (n = keylen; n > 0; n -= 16)
def finalChunks (final : Bytes) (n : ℕ) : List Chunk :=
  (List.range ((n + 15) / 16)).map fun k => ⟨.final, 0, final.take (min 16 (n - 16 * k))⟩

-- for (i = keylen; i; i >>= 1), after final is cleared
def bitChunks (key : CStr) : List Chunk :=
  key.text.length.bits.map fun bit => if bit then ⟨.final, 0, [0]⟩ else ⟨.password, 0, key.text.take 1⟩

-- What the round i of the 1000 hands to ngx_md5_update
def roundChunks (key entry : CStr) (final : Bytes) (i : ℕ) : List Chunk :=
  let odd := i % 2 = 1
  (if odd then [keyChunk key] else [⟨.final, 0, final⟩]) ++ (if i % 3 ≠ 0 then [saltChunk entry] else []) ++
    (if i % 7 ≠ 0 then [keyChunk key] else []) ++ (if odd then [⟨.final, 0, final⟩] else [keyChunk key])

-- ngx_crypt_to64
def toBase64 (v : UInt32) : ℕ → Bytes
  | 0 => []
  | n + 1 =>
      (ngxString "./0123456789ABCDEFGHIJKLMNOPQRSTUVWXYZabcdefghijklmnopqrstuvwxyz").getD (v &&& 0x3f).toNat 0 ::
        toBase64 (v >>> 6) n

-- The six calls, for three bytes of final each but the last one
def apr1Digits (final : Bytes) : List Bytes :=
  let byte := fun k => (final.getD k 0).toUInt32
  let group := fun a b c => toBase64 (byte a <<< 16 ||| byte b <<< 8 ||| byte c) 4
  [group 0 6 12, group 1 7 13, group 2 8 14, group 3 9 15, group 4 10 5, toBase64 (byte 11) 2]

-- What is written through p, one piece after the other
def writes (region : Region) : ℕ → List Bytes → List Access
  | _, [] => []
  | pos, piece :: pieces => .write region pos piece.length :: writes region (pos + piece.length) pieces

structure Outcome where
  accesses : List Access
  text : Bytes

-- The size of the block, and of the others
def apr1Sizes (key entry : CStr) : Region → ℕ
  | .password => key.text.length + 1
  | .entry => entry.text.length + 1
  | .decoded => 0
  | .encrypted => 6 + (apr1Salt entry).length + 16 + 1
  | .final => 16
  | .magic => 6

def apr1Pieces (entry : CStr) (final : Bytes) : List Bytes :=
  magic :: apr1Salt entry :: [36] :: (apr1Digits final ++ [[0]])

-- The first digest, and the second one
def firstChunks (key entry : CStr) : List Chunk := [keyChunk key, saltChunk entry, keyChunk key]

def secondChunks (buffer : Bytes) (key entry : CStr) : List Chunk :=
  [keyChunk key, ⟨.magic, 0, magic⟩, saltChunk entry] ++
    finalChunks (digest buffer (firstChunks key entry)) key.text.length ++ bitChunks key

def roundStep (buffer : Bytes) (key entry : CStr) (p : List Access × Bytes) (i : ℕ) : List Access × Bytes :=
  (p.1 ++ ((roundChunks key entry p.2 i).map Chunk.access ++ [.write .final 0 16]),
    digest buffer (roundChunks key entry p.2 i))

-- The accesses of the 1000 rounds, and what final holds behind them
def rounds (buffer : Bytes) (key entry : CStr) : List Access × Bytes :=
  (List.range 1000).foldl (roundStep buffer key entry) ([], digest buffer (secondChunks buffer key entry))

-- ngx_crypt_apr1, when the block is allocated
def apr1 (buffer : Bytes) (key entry : CStr) : Outcome where
  accesses :=
    .read .password 0 (key.text.length + 1) :: .read .entry 6 ((apr1Salt entry).length + 1) ::
      ((firstChunks key entry).map Chunk.access ++ [.write .final 0 16] ++
        (secondChunks buffer key entry).map Chunk.access ++ [.write .final 0 16] ++ (rounds buffer key entry).1 ++
        writes .encrypted 0 (apr1Pieces entry (rounds buffer key entry).2))
  text := (apr1Pieces entry (rounds buffer key entry).2).flatten

-- ngx_base64_decoded_length and ngx_base64_encoded_length
def decodedLength (len : ℕ) : ℕ := (len + 3) / 4 * 3

def encodedLength (len : ℕ) : ℕ := (len + 2) / 3 * 4

-- decoded.len, which holds anything when ngx_decode_base64 fails
def decodedLen (entry : CStr) (garbage : ℕ) : ℕ :=
  match decodeBase64 (entry.text.drop 6) with
  | none => garbage
  | some decoded => decoded.length

def sshaSizes (key entry : CStr) (garbage : ℕ) : Region → ℕ
  | .password => key.text.length + 1
  | .entry => entry.text.length + 1
  | .decoded => decodedLength (entry.text.drop 6).length
  | .encrypted => toSize (6 + encodedLength (decodedLen entry garbage) + 1)
  | .final => 0
  | .magic => 6

-- ngx_crypt_ssha: what it reads and writes, when its blocks are allocated. ngx_sha1_final writes 20 bytes.
def ssha (key entry : CStr) (garbage : ℕ) : List Access :=
  let encoded := entry.text.drop 6
  let len := decodedLen entry garbage
  let written := match decodeBase64 encoded with
    | none => 0
    | some decoded => decoded.length
  [.read .entry 6 (encoded.length + 1), .read .entry 6 encoded.length, .write .decoded 0 written,
    .read .password 0 (key.text.length + 1), .read .password 0 key.text.length,
    .read .decoded 20 (toSize (len - 20)), .write .decoded 0 20,
    .write .encrypted 0 6, .read .decoded 0 len, .write .encrypted 6 (encodedLength len),
    .write .encrypted (6 + encodedLength len) 1]

inductive Method
  | apr1
  | plain
  | ssha
  | libc
  deriving DecidableEq

-- ngx_crypt
def method (entry : CStr) : Method :=
  if magic <+: entry.text then .apr1
  else if ngxString "{PLAIN}" <+: entry.text then .plain
  else if ngxString "{SSHA}" <+: entry.text then .ssha
  else .libc

-- The text of the claimed form, with the NUL behind it
def Apr1Text (entry : CStr) (text : Bytes) : Prop :=
  ∃ digits, digits.length = 22 ∧
    text = magic ++ ((entry.text.drop 6).takeWhile (· ≠ 36)).take 8 ++ 36 :: (digits ++ [0])

-- What ngx_crypt does with an entry stays in the buffers.
def InBuffers (buffer : Bytes) (key entry : CStr) : Prop :=
  match method entry with
  | .apr1 =>
      (∀ a ∈ (apr1 buffer key entry).accesses, a.Inside (apr1Sizes key entry)) ∧
        Apr1Text entry (apr1 buffer key entry).text
  | .ssha => ∀ garbage, ∀ a ∈ ssha key entry garbage, a.Inside (sshaSizes key entry garbage)
  | .plain => True
  | .libc => True

variable {buffer : Bytes} {key entry : CStr} {final p : Bytes} {n i : ℕ} {size : Region → ℕ}

theorem magic_length : magic.length = 6 := by decide

theorem saltLoop_eq (h : 0 ∉ p) : saltLoop n p = (p.takeWhile (· ≠ 36)).take n := by
  induction p generalizing n with
  | nil => cases n <;> rfl
  | cons c p ih =>
      rw [List.mem_cons, not_or] at h
      obtain ⟨hc, hp⟩ := h
      cases n with
      | zero => rw [saltLoop, List.take_zero]; simp
      | succ n =>
          rw [saltLoop]
          by_cases hend : c = 36
          · rw [if_neg fun h => h.2 hend, List.takeWhile_cons_of_neg (by simpa using hend), List.take_nil]
          · rw [if_pos ⟨Ne.symm hc, hend⟩, List.takeWhile_cons_of_pos (by simpa using hend), List.take_succ_cons, ih hp]

theorem apr1Salt_eq (entry : CStr) : apr1Salt entry = ((entry.text.drop 6).takeWhile (· ≠ 36)).take 8 :=
  saltLoop_eq fun h => entry.nul (List.mem_of_mem_drop h)

theorem toBase64_length (v : UInt32) (n : ℕ) : (toBase64 v n).length = n := by
  induction n generalizing v with
  | zero => rfl
  | succ n ih => rw [toBase64, List.length_cons, ih]

theorem apr1Digits_length (final : Bytes) : (apr1Digits final).flatten.length = 22 := by
  simp [apr1Digits, toBase64_length]

theorem apr1_text (buffer : Bytes) (key entry : CStr) : Apr1Text entry (apr1 buffer key entry).text := by
  refine ⟨(apr1Digits (rounds buffer key entry).2).flatten, apr1Digits_length _, ?_⟩
  rw [← apr1Salt_eq, apr1, apr1Pieces]
  dsimp only
  rw [List.flatten_cons, List.flatten_cons, List.flatten_cons, List.flatten_append, List.append_assoc]
  rfl

-- The last access is the one to the NUL, six bytes behind the block.
theorem writes_append (region : Region) (pos : ℕ) (front back : List Bytes) :
    writes region pos (front ++ back) = writes region pos front ++ writes region (pos + front.flatten.length) back := by
  induction front generalizing pos with
  | nil => simp [writes]
  | cons piece front ih =>
      rw [List.cons_append, writes, writes, ih, List.flatten_cons, List.length_append, Nat.add_assoc]
      rfl

theorem apr1_overruns (buffer : Bytes) (key entry : CStr) :
    ¬∀ a ∈ (apr1 buffer key entry).accesses, a.Inside (apr1Sizes key entry) := by
  intro h
  have hlast : Access.write .encrypted ((apr1Salt entry).length + 29) 1 ∈ (apr1 buffer key entry).accesses := by
    rw [apr1]
    dsimp only
    refine List.mem_cons_of_mem _ (List.mem_cons_of_mem _ (List.mem_append_right _ ?_))
    rw [apr1Pieces, show ∀ digits : List Bytes, magic :: apr1Salt entry :: [36] :: (digits ++ [[0]]) =
      (magic :: apr1Salt entry :: [36] :: digits) ++ [[0]] from fun _ => rfl, writes_append]
    refine List.mem_append_right _ ?_
    rw [List.flatten_cons, List.flatten_cons, List.flatten_cons, List.length_append, List.length_append,
      List.length_append, apr1Digits_length]
    have hpos : 0 + (magic.length + ((apr1Salt entry).length + (([36] : Bytes).length + 22))) = (apr1Salt entry).length + 29 := by
      rw [magic_length, List.length_singleton]
      omega
    rw [hpos]
    exact List.mem_singleton_self _
  have hinside := (h _ hlast).2
  simp only [apr1Sizes] at hinside
  omega

section Roomy

-- A block that holds the text, and the other objects as they are
def apr1Roomy (key entry : CStr) (region : Region) : ℕ :=
  if region = .encrypted then 6 + (apr1Salt entry).length + 1 + 22 + 1 else apr1Sizes key entry region

def Chunk.Within (size : Region → ℕ) (c : Chunk) : Prop := c.pos + c.data.length ≤ size c.region

theorem inside_of_within {chunks : List Chunk} (h : ∀ c ∈ chunks, c.Within size) :
    ∀ a ∈ chunks.map Chunk.access, a.Inside size := by
  intro a ha
  obtain ⟨c, hc, rfl⟩ := List.mem_map.mp ha
  exact h c hc

theorem digest_length (buffer : Bytes) (chunks : List Chunk) : (digest buffer chunks).length = 16 := md5Final_length _

theorem key_within : (keyChunk key).Within (apr1Roomy key entry) := by
  simp only [Chunk.Within, keyChunk, apr1Roomy, apr1Sizes, reduceCtorEq, if_false]
  omega

theorem salt_end_le (hmagic : magic <+: entry.text) : 6 + (apr1Salt entry).length ≤ entry.text.length := by
  have hlong := hmagic.length_le
  have hsalt : (apr1Salt entry).length ≤ (entry.text.drop 6).length := by
    rw [apr1Salt_eq]
    exact ((List.take_prefix _ _).length_le).trans (List.takeWhile_prefix _).length_le
  rw [magic_length] at hlong
  rw [List.length_drop] at hsalt
  omega

theorem salt_within (hmagic : magic <+: entry.text) : (saltChunk entry).Within (apr1Roomy key entry) := by
  have hend := salt_end_le hmagic
  simp only [Chunk.Within, saltChunk, apr1Roomy, apr1Sizes, reduceCtorEq, if_false]
  omega

theorem final_within {data : Bytes} (hdata : data.length ≤ 16) :
    Chunk.Within (apr1Roomy key entry) ⟨.final, 0, data⟩ := by
  simp only [Chunk.Within, apr1Roomy, apr1Sizes, reduceCtorEq, if_false]
  omega

theorem second_within (hmagic : magic <+: entry.text) :
    ∀ c ∈ secondChunks buffer key entry, c.Within (apr1Roomy key entry) := by
  intro c hc
  rcases List.mem_append.mp hc with hc | hc
  · rcases List.mem_append.mp hc with hc | hc
    · simp only [List.mem_cons, List.not_mem_nil, or_false] at hc
      rcases hc with rfl | rfl | rfl
      · exact key_within
      · simp only [Chunk.Within, apr1Roomy, apr1Sizes, reduceCtorEq, if_false, magic_length]
        omega
      · exact salt_within hmagic
    · obtain ⟨k, -, rfl⟩ := List.mem_map.mp hc
      refine final_within ?_
      rw [List.length_take]
      omega
  · obtain ⟨bit, -, rfl⟩ := List.mem_map.mp hc
    cases bit with
    | true => exact final_within (by decide)
    | false =>
        simp only [Chunk.Within, apr1Roomy, apr1Sizes, reduceCtorEq, if_false, Bool.false_eq_true, List.length_take]
        omega

theorem round_within (hmagic : magic <+: entry.text) (hfinal : final.length = 16) (i : ℕ) :
    ∀ c ∈ roundChunks key entry final i, c.Within (apr1Roomy key entry) := by
  intro c hc
  have hcases : c = keyChunk key ∨ c = ⟨.final, 0, final⟩ ∨ c = saltChunk entry := by
    simp only [roundChunks, List.mem_append] at hc
    rcases hc with ((hc | hc) | hc) | hc
    all_goals
      split at hc
      all_goals simp_all
  rcases hcases with rfl | rfl | rfl
  · exact key_within
  · exact final_within (Nat.le_of_eq hfinal)
  · exact salt_within hmagic

theorem final_written : (Access.write .final 0 16).Inside (apr1Roomy key entry) := ⟨.inr (.inr rfl), Nat.le_refl 16⟩

theorem rounds_inside (hmagic : magic <+: entry.text) (l : List ℕ) (p : List Access × Bytes)
    (hp : ∀ a ∈ p.1, a.Inside (apr1Roomy key entry)) (hfinal : p.2.length = 16) :
    ∀ a ∈ (l.foldl (roundStep buffer key entry) p).1, a.Inside (apr1Roomy key entry) := by
  induction l generalizing p with
  | nil => exact hp
  | cons i l ih =>
      rw [List.foldl_cons]
      refine ih _ ?_ (digest_length _ _)
      intro a ha
      rcases List.mem_append.mp ha with ha | ha
      · exact hp a ha
      · rcases List.mem_append.mp ha with ha | ha
        · exact inside_of_within (round_within hmagic hfinal i) a ha
        · exact List.mem_singleton.mp ha ▸ final_written

theorem writes_inside (pos : ℕ) (pieces : List Bytes) (hroom : pos + pieces.flatten.length ≤ size .encrypted) :
    ∀ a ∈ writes .encrypted pos pieces, a.Inside size := by
  induction pieces generalizing pos with
  | nil => simp [writes]
  | cons piece pieces ih =>
      rw [List.flatten_cons, List.length_append] at hroom
      rw [writes]
      refine List.forall_mem_cons.mpr ⟨⟨.inr (.inl rfl), by omega⟩, ih _ (by omega)⟩

-- With room for the 22 characters everything would stay inside.
theorem apr1_inside (hmagic : magic <+: entry.text) :
    ∀ a ∈ (apr1 buffer key entry).accesses, a.Inside (apr1Roomy key entry) := by
  have hfirst : ∀ c ∈ firstChunks key entry, c.Within (apr1Roomy key entry) := by
    simp only [firstChunks, List.mem_cons, List.not_mem_nil, or_false]
    rintro c (rfl | rfl | rfl)
    · exact key_within
    · exact salt_within hmagic
    · exact key_within
  intro a ha
  rw [apr1] at ha
  dsimp only at ha
  simp only [List.mem_cons, List.mem_append, List.not_mem_nil, or_false] at ha
  rcases ha with rfl | rfl | ((((ha | rfl) | ha) | rfl) | ha) | ha
  · simp [Access.Inside, apr1Roomy, apr1Sizes]
  · have hend := salt_end_le hmagic
    simp only [Access.Inside, apr1Roomy, apr1Sizes, reduceCtorEq, if_false]
    omega
  · exact inside_of_within hfirst a ha
  · exact final_written
  · exact inside_of_within (second_within hmagic) a ha
  · exact final_written
  · exact rounds_inside hmagic _ _ (by simp) (digest_length _ _) a ha
  · refine writes_inside 0 _ ?_ a ha
    simp only [apr1Pieces, List.flatten_cons, List.flatten_append, List.length_append, apr1Digits_length, apr1Roomy,
      magic_length, if_true, List.length_singleton, List.flatten_nil, List.length_nil]
    omega

end Roomy

-- What ngx_decode_base64 gives fits into the block.
theorem decoded_fits {encoded decoded : Bytes} (h : decodeBase64 encoded = some decoded) :
    decoded.length ≤ decodedLength encoded.length := by
  obtain ⟨-, hlen, rfl⟩ := (decodeInternal_eq_some_iff _ _ _).mp h
  have htext : (textOf encoded).length ≤ encoded.length := (List.takeWhile_prefix _).length_le
  rw [decodeText_length _ _ hlen, decodedLength]
  omega

theorem ssha_inside_iff (hssha : ngxString "{SSHA}" <+: entry.text) :
    (∀ garbage, ∀ a ∈ ssha key entry garbage, a.Inside (sshaSizes key entry garbage)) ↔
      ∃ decoded, decodeBase64 (entry.text.drop 6) = some decoded ∧ 20 ≤ decoded.length := by
  have hsmall := entry.small
  have hdrop : (entry.text.drop 6).length = entry.text.length - 6 := List.length_drop
  have hprefix : 6 ≤ entry.text.length := by
    have hsix : (ngxString "{SSHA}").length = 6 := by decide
    exact hsix ▸ hssha.length_le
  constructor
  · intro h
    have hread : ∀ garbage, 20 + toSize (decodedLen entry garbage - 20) ≤ decodedLength (entry.text.drop 6).length :=
      fun garbage => h garbage (.read .decoded 20 (toSize (decodedLen entry garbage - 20))) (by simp [ssha])
    rw [hdrop, decodedLength] at hread
    cases hdecode : decodeBase64 (entry.text.drop 6) with
    | none =>
        have hzero := hread 0
        have hlen : decodedLen entry 0 = 0 := by rw [decodedLen, hdecode]
        rw [hlen, toSize] at hzero
        omega
    | some decoded =>
        refine ⟨decoded, rfl, ?_⟩
        have hzero := hread 0
        have hlen : decodedLen entry 0 = decoded.length := by rw [decodedLen, hdecode]
        rw [hlen, toSize] at hzero
        omega
  · rintro ⟨decoded, hdecode, htwenty⟩ garbage a ha
    have hlen : decodedLen entry garbage = decoded.length := by rw [decodedLen, hdecode]
    have hfits := decoded_fits hdecode
    have hsalt : toSize (decoded.length - 20) = decoded.length - 20 := by
      rw [toSize]
      rw [hdrop, decodedLength] at hfits
      omega
    have hblock : toSize (6 + encodedLength decoded.length + 1) = 6 + encodedLength decoded.length + 1 := by
      rw [toSize, encodedLength]
      rw [hdrop, decodedLength] at hfits
      omega
    rw [ssha, hlen, hdecode, hsalt] at ha
    simp only [List.mem_cons, List.not_mem_nil, or_false] at ha
    rcases ha with rfl | rfl | rfl | rfl | rfl | rfl | rfl | rfl | rfl | rfl | rfl
    all_goals
      simp only [Access.Inside, sshaSizes, hlen, hblock, true_or, or_true, true_and, reduceCtorEq, false_or]
      omega

theorem crypt_in_buffers_iff (buffer : Bytes) (key entry : CStr) :
    Apr1Text entry (apr1 buffer key entry).text ∧
      (InBuffers buffer key entry ↔
        ¬magic <+: entry.text ∧ (ngxString "{SSHA}" <+: entry.text →
          ∃ decoded, decodeBase64 (entry.text.drop 6) = some decoded ∧ 20 ≤ decoded.length)) := by
  refine ⟨apr1_text buffer key entry, ?_⟩
  rw [InBuffers, method]
  by_cases hapr1 : magic <+: entry.text
  · rw [if_pos hapr1]
    exact iff_of_false (fun h => apr1_overruns buffer key entry h.1) fun h => h.1 hapr1
  · rw [if_neg hapr1]
    by_cases hplain : ngxString "{PLAIN}" <+: entry.text
    · rw [if_pos hplain]
      refine iff_of_true trivial ⟨hapr1, fun hssha => ?_⟩
      have hboth := List.prefix_of_prefix_length_le hssha hplain (by decide)
      exact absurd hboth (by decide)
    · rw [if_neg hplain]
      by_cases hssha : ngxString "{SSHA}" <+: entry.text
      · rw [if_pos hssha]
        exact (ssha_inside_iff hssha).trans ⟨fun h => ⟨hapr1, fun _ => h⟩, fun h => h.2 hssha⟩
      · rw [if_neg hssha]
        exact iff_of_true trivial ⟨hapr1, fun h => (hssha h).elim⟩

def password : CStr := ⟨ngxString "secret", by decide, by decide⟩

def apr1Entry : CStr := ⟨ngxString "$apr1$salt$", by decide, by decide⟩

-- "abc" in base64
def shortEntry : CStr := ⟨ngxString "{SSHA}YWJj", by decide, by decide⟩

theorem entries_overrun : ¬InBuffers [] password apr1Entry ∧ ¬InBuffers [] password shortEntry := by
  have hapr1 : method apr1Entry = .apr1 := by decide
  have hssha : method shortEntry = .ssha := by decide
  constructor
  · rw [InBuffers, hapr1]
    exact fun h => apr1_overruns [] password apr1Entry h.1
  · rw [InBuffers, hssha]
    intro h
    obtain ⟨decoded, hdecode, hlong⟩ := (ssha_inside_iff (by decide)).mp h
    have habc : decodeBase64 (shortEntry.text.drop 6) = some (ngxString "abc") := by decide
    rw [habc] at hdecode
    cases hdecode
    exact absurd hlong (by decide +kernel)

end Nginx.Crypt
