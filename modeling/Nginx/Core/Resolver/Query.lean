import Nginx.Core.Resolver.Copy

namespace Nginx.Core.Resolver

open ByteMemory hiding encode encode_length
open DomainName

variable {mem : Memory} {last p : Nat} {ls : List Label}

theorem holds_cons (mem : Memory) (a : Nat) (c : UInt8) (bs : Bytes) :
    Holds mem a (c :: bs) ↔ mem a = c ∧ Holds mem (a + 1) bs := by
  rw [← List.singleton_append, holds_append]
  simp [Holds, load]

-- Labels that stand one after another are walked through without a pointer.
theorem walk_encode (h : Holds mem p (encode ls)) (hwf : WellFormed ls)
    (hlast : p + (encode ls).length ≤ last) :
    ∃ vs, Walk mem last p vs ls ∧ vs.length = ls.length + 1 ∧ NoPointerToRoot mem vs := by
  induction ls generalizing p with
  | nil =>
      have h0 : mem p = 0 := ((holds_cons mem p 0 []).mp h).1
      refine ⟨[p], .root h0, rfl, fun v hv hmark => ?_⟩
      rw [List.mem_singleton.mp hv] at hmark
      exact absurd h0 (not_zero_of_eitherBit hmark)
  | cons l ls ih =>
      obtain ⟨hhead, hrest⟩ := (holds_cons mem p _ _).mp h
      obtain ⟨hlabel, htail⟩ := (holds_append mem (p + 1) l (encode ls)).mp hrest
      obtain ⟨hne, h64⟩ := hwf l List.mem_cons_self
      have hpos := List.length_pos_of_ne_nil hne
      have hn : (mem p).toNat = l.length := by
        rw [hhead, UInt8.toNat_ofNat']
        exact Nat.mod_eq_of_lt (by omega)
      have h0 : mem p ≠ 0 := fun h0 => by rw [h0] at hn; simp at hn; omega
      have hmark : eitherBit (mem p) = false := by simpa [eitherBit, hn] using h64
      rw [encode, List.length_cons, List.length_append] at hlast
      have hend := encode_length ls
      rw [← hn] at htail
      obtain ⟨vs, hwalk, hlen, hroot⟩ := ih htail (fun k hk => hwf k (List.mem_cons_of_mem _ hk)) (by omega)
      have hw := Walk.label h0 hmark (by omega) hwalk
      rw [hn, show load mem (p + 1) l.length = l from hlabel] at hw
      refine ⟨p :: vs, hw, by simp [hlen], fun v hv hm => ?_⟩
      cases List.mem_cons.mp hv with
      | inl h =>
          rw [h, hmark] at hm
          exact Bool.noConfusion hm
      | inr h => exact hroot v h hm

@[simp] theorem Block.mem_put (b : Block) (p : Nat) (c : UInt8) : (b.put p c).mem = store b.mem p [c] := rfl

@[simp] theorem Block.writes_put (b : Block) (p : Nat) (c : UInt8) : (b.put p c).writes = p :: b.writes := rfl

theorem Block.writes_putAll (b : Block) (p : Nat) (cs : Bytes) {o : Nat} (h : o ∈ (b.putAll p cs).writes) :
    o ∈ b.writes ∨ p ≤ o ∧ o < p + cs.length := by
  induction cs generalizing b p with
  | nil => exact .inl h
  | cons c cs ih =>
      rw [List.length_cons]
      cases ih _ _ h with
      | inl h =>
          cases List.mem_cons.mp h with
          | inl h => right; omega
          | inr h => exact .inl h
      | inr h => right; omega

-- The labels that the loop has passed, the current one first and its octet still to be written.
structure Passed (b : Block) (p len : Nat) (l : Label) (ls : List Label) : Prop where
  held : Holds b.mem (p + 1) (l ++ encode ls)
  counted : l.length = len
  current : 46 ∉ l
  closed : ∀ k ∈ ls, k ≠ [] ∧ 46 ∉ k

theorem Passed.byte {b : Block} {len : Nat} {l : Label} {c : UInt8} (h : Passed b (p + 1) len l ls)
    (hc : c ≠ 46) : Passed (b.put (p + 1) c) p (len + 1) (c :: l) ls where
  held := by
    rw [List.cons_append, holds_cons]
    refine ⟨?_, h.held.store [c] (.inr (by simp))⟩
    exact ((holds_cons _ _ _ []).mp (holds_store b.mem (p + 1) [c])).1
  counted := by rw [List.length_cons, h.counted]
  current := by
    intro hmem
    cases List.mem_cons.mp hmem with
    | inl he => exact hc he.symm
    | inr hl => exact h.current hl
  closed := h.closed

theorem Passed.octet {b : Block} {len : Nat} {l : Label} (h : Passed b p len l ls) :
    Holds (b.put p (UInt8.ofNat len)).mem p (encode (l :: ls)) := by
  rw [encode, holds_cons, h.counted]
  refine ⟨?_, h.held.store [_] (.inr (by simp))⟩
  exact ((holds_cons _ _ _ []).mp (holds_store b.mem p [_])).1

theorem Passed.dot {b : Block} {len : Nat} {l : Label} (h : Passed b (p + 1) len l ls) (hlen : len ≠ 0) :
    Passed (b.put (p + 1) (UInt8.ofNat len)) p 0 [] (l :: ls) where
  held := h.octet
  counted := rfl
  current := List.not_mem_nil
  closed := by
    intro k hk
    cases List.mem_cons.mp hk with
    | inl he =>
        rw [he]
        refine ⟨fun hnil => ?_, h.current⟩
        rw [← h.counted, hnil] at hlen
        exact hlen rfl
    | inr hl => exact h.closed k hl

-- The whole loop: it moves p back by the bytes it reads and splits them at their dots.
theorem encodeLoop_spec {s : Bytes} {b b' : Block} {len p' len' : Nat} {l : Label}
    (h : Passed b (p + s.length) len l ls) (hrun : encodeLoop s (p + s.length) len b = (some (p', len'), b')) :
    p' = p ∧ (∀ o ∈ b'.writes, o ∈ b.writes ∨ p < o ∧ o ≤ p + s.length) ∧
      ∃ l' ls', Passed b' p len' l' ls' ∧ s.reverse ++ dotted (l :: ls) = dotted (l' :: ls') := by
  induction s generalizing len b l ls with
  | nil =>
      cases hrun
      exact ⟨rfl, fun o ho => .inl ho, l, ls, h, rfl⟩
  | cons c s ih =>
      rw [List.length_cons, ← Nat.add_assoc] at h hrun
      rw [encodeLoop, Nat.add_sub_cancel] at hrun
      have hwrites : ∀ d : UInt8, ∀ o, o ∈ (b.put (p + s.length + 1) d).writes ∨ p < o ∧ o ≤ p + s.length →
          o ∈ b.writes ∨ p < o ∧ o ≤ p + (c :: s).length := by
        intro d o ho
        rw [List.length_cons]
        cases ho with
        | inl h =>
            cases List.mem_cons.mp h with
            | inl h => right; omega
            | inr h => exact .inl h
        | inr h => right; omega
      by_cases hc : c = 46
      · rw [if_neg (by simpa using hc)] at hrun
        by_cases hlen : len = 0
        · rw [if_pos hlen] at hrun
          cases hrun
        rw [if_neg hlen] at hrun
        obtain ⟨hp, hw, l', ls', hpassed, htext⟩ := ih (h.dot hlen) hrun
        refine ⟨hp, fun o ho => hwrites _ o (hw o ho), l', ls', hpassed, ?_⟩
        rw [← htext, dotted_cons [] (List.cons_ne_nil _ _), hc]
        simp
      · rw [if_pos hc] at hrun
        obtain ⟨hp, hw, l', ls', hpassed, htext⟩ := ih (h.byte hc) hrun
        refine ⟨hp, fun o ho => hwrites _ o (hw o ho), l', ls', hpassed, ?_⟩
        rw [← htext]
        rw [dotted_byte]
        simp

-- The fields before and after the question, and its zero octet.
def opened (mem : Memory) (name : Bytes) (type ident : Nat) : Block :=
  let nlen := if name.length ≠ 0 then 1 + name.length + 1 else 1
  ((Block.putAll ⟨mem, []⟩ 0
    [UInt8.ofNat ((ident >>> 8) &&& 0xff), UInt8.ofNat (ident &&& 0xff), 1, 0, 0, 1, 0, 0, 0, 0, 0, 0]).putAll
      (12 + nlen) [0, UInt8.ofNat type, 0, 1]).put (12 + nlen - 1) 0

theorem opened_passed (mem : Memory) (name : Bytes) (type ident : Nat) :
    Passed (opened mem name type ident) (12 + (if name.length ≠ 0 then 1 + name.length + 1 else 1) - 1 - 1) 0 [] [] where
  held := by
    have hpos : 12 + (if name.length ≠ 0 then 1 + name.length + 1 else 1) - 1 - 1 + 1
        = 12 + (if name.length ≠ 0 then 1 + name.length + 1 else 1) - 1 := by split <;> omega
    rw [hpos]
    exact holds_store _ _ [0]
  counted := rfl
  current := List.not_mem_nil
  closed := by simp

theorem opened_writes (mem : Memory) (name : Bytes) (type ident : Nat) :
    ∀ o ∈ (opened mem name type ident).writes,
      o < 12 + (if name.length ≠ 0 then 1 + name.length + 1 else 1) + 4 := by
  intro o ho
  rw [opened, Block.writes_put] at ho
  cases List.mem_cons.mp ho with
  | inl h => omega
  | inr h =>
      cases Block.writes_putAll _ _ _ h with
      | inl h =>
          cases Block.writes_putAll _ _ _ h with
          | inl h => exact absurd h List.not_mem_nil
          | inr h => simp only [List.length_cons, List.length_nil] at h; omega
      | inr h => simp only [List.length_cons, List.length_nil] at h; omega

theorem createNameQuery_eq (mem : Memory) (name : Bytes) (type ident : Nat) :
    createNameQuery mem true name type ident =
      let nlen := if name.length ≠ 0 then 1 + name.length + 1 else 1
      match encodeLoop name.reverse (12 + nlen - 1 - 1) 0 (opened mem name type ident) with
      | (none, b) => ⟨.declined, 12 + nlen + 4, (12 + nlen + 4) % 2 ^ 16, b⟩
      | (some (p, n), b) => ⟨.ok, 12 + nlen + 4, (12 + nlen + 4) % 2 ^ 16, b.put p (UInt8.ofNat n)⟩ := rfl

-- What a query that is created holds: the parts of the name between its dots, of any length.
structure Question (name : Bytes) (r : Created) (ls : List Label) : Prop where
  written : ∀ o ∈ r.query.writes, o < r.allocated
  size : r.allocated = 12 + (encode ls).length + 4
  sent : r.qlen = r.allocated % 2 ^ 16
  held : Holds r.query.mem 12 (encode ls)
  text : dotted ls = name
  dots : ∀ l ∈ ls, 46 ∉ l
  inner : ∀ l ∈ ls.tail, l ≠ []
  empty : ls = [] ↔ name = []

theorem createNameQuery_question {name : Bytes} {type ident : Nat} {alloc : Bool}
    (h : (createNameQuery mem alloc name type ident).rc = .ok) :
    ∃ ls, Question name (createNameQuery mem alloc name type ident) ls := by
  cases alloc with
  | false => exact Rc.noConfusion h
  | true =>
  have hw := opened_writes mem name type ident
  have hpassed := opened_passed mem name type ident
  rw [createNameQuery_eq] at h ⊢
  cases name with
  | nil =>
      refine ⟨[], fun o ho => ?_, rfl, rfl, ?_, rfl, by simp, by simp, by simp⟩
      · cases List.mem_cons.mp ho with
        | inl h =>
            rw [h]
            show 11 < 17
            decide
        | inr h => exact hw o h
      · exact hpassed.held.store [_] (.inr (by decide))
  | cons c name =>
      have hlen : (if (c :: name).length ≠ 0 then 1 + (c :: name).length + 1 else 1) = 1 + (c :: name).length + 1 :=
        if_pos (by simp)
      have hpos : 12 + (1 + (c :: name).length + 1) - 1 - 1 = 12 + (c :: name).reverse.length := by
        rw [List.length_reverse]
        omega
      rw [hlen] at hw hpassed h ⊢
      dsimp only at h ⊢
      rw [hpos] at hpassed h ⊢
      cases hrun : encodeLoop (c :: name).reverse (12 + (c :: name).reverse.length) 0 (opened mem (c :: name) type ident) with
      | mk r b =>
      rw [hrun] at h
      cases r with
      | none => exact Rc.noConfusion h
      | some r =>
      obtain ⟨p', len'⟩ := r
      obtain ⟨hp, hbw, l, ls, hb, htext⟩ := encodeLoop_spec hpassed hrun
      subst hp
      have hname : dotted (l :: ls) = c :: name := by
        rw [← htext, List.reverse_reverse]
        simp [dotted]
      have hspan := dotted_length (List.cons_ne_nil l ls)
      have henc := encode_length (l :: ls)
      rw [hname] at hspan
      refine ⟨l :: ls, fun o ho => ?_, ?_, rfl, hb.octet, hname, fun k hk => ?_, fun k hk => (hb.closed k hk).1, by simp⟩
      · cases List.mem_cons.mp ho with
        | inl h => dsimp only; omega
        | inr h =>
            cases hbw o h with
            | inl h => exact hw o h
            | inr h =>
                rw [List.length_reverse] at h
                dsimp only
                omega
      · dsimp only
        omega
      · cases List.mem_cons.mp hk with
        | inl h => rw [h]; exact hb.current
        | inr h => exact (hb.closed k h).2

-- Octets that are read as other labels give another name, or the labels are the parts.
theorem encode_unique {ls ps : List Label} (henc : encode ls = encode ps)
    (htext : dotted ls = dotted ps) (hwf : WellFormed ls) (hdots : ∀ l ∈ ps, 46 ∉ l) : ls = ps := by
  induction ls generalizing ps with
  | nil =>
      cases ps with
      | nil => rfl
      | cons k ps =>
          have hlen := congrArg List.length henc
          rw [encode_length, encode_length, span_cons, span_nil] at hlen
          omega
  | cons l ls ih =>
      cases ps with
      | nil =>
          have hlen := congrArg List.length henc
          rw [encode_length, encode_length, span_cons, span_nil] at hlen
          omega
      | cons k ps =>
          obtain ⟨hoctet, hrest⟩ := List.cons.inj henc
          have h64 := (hwf l List.mem_cons_self).2
          have hmod : l.length = k.length % 256 := by
            have h := congrArg UInt8.toNat hoctet
            rw [UInt8.toNat_ofNat', UInt8.toNat_ofNat'] at h
            omega
          have hle : l.length ≤ k.length := by omega
          obtain ⟨m, hm⟩ : ∃ m, k = l ++ m := by
            cases List.append_eq_append_iff.mp hrest with
            | inl h =>
                obtain ⟨m, hm, _⟩ := h
                exact ⟨m, hm⟩
            | inr h =>
                obtain ⟨m, hm, _⟩ := h
                have hlen := congrArg List.length hm
                rw [List.length_append] at hlen
                have hnil : m = [] := List.eq_nil_of_length_eq_zero (by omega)
                exact ⟨[], by rw [hm, hnil, List.append_nil, List.append_nil]⟩
          subst hm
          have htail := htext
          rw [← List.append_nil l, dotted_append, List.append_nil, dotted_append] at htail
          have hrem := List.append_cancel_left htail
          cases m with
          | nil =>
              rw [List.append_nil] at hrest hdots ⊢
              have henc := List.append_cancel_left hrest
              have hlen := congrArg List.length henc
              rw [encode_length, encode_length] at hlen
              cases ls with
              | nil =>
                  cases ps with
                  | nil => rfl
                  | cons k ps =>
                      rw [span_cons, span_nil] at hlen
                      omega
              | cons l' ls =>
                  have hps : ps ≠ [] := by
                    rintro rfl
                    rw [span_cons, span_nil] at hlen
                    omega
                  rw [dotted_cons [] (List.cons_ne_nil _ _), dotted_cons [] hps] at hrem
                  rw [ih henc (List.cons.inj hrem).2 (fun k hk => hwf k (List.mem_cons_of_mem _ hk))
                    fun k hk => hdots k (List.mem_cons_of_mem _ hk)]
          | cons c m =>
              -- the name has a dot, or ends, where the part has one more byte
              rw [dotted_byte] at hrem
              cases ls with
              | nil => exact List.noConfusion rfl (heq_of_eq hrem)
              | cons l' ls =>
                  rw [dotted_cons [] (List.cons_ne_nil _ _)] at hrem
                  have hc := (List.cons.inj hrem).1
                  exact absurd (hc ▸ List.mem_append_right l List.mem_cons_self) (hdots _ List.mem_cons_self)

-- ngx_resolver_copy on the question of a query.
theorem copy_encode (h : Holds mem 12 (encode ls)) (hwf : WellFormed ls) (hlast : 12 + (encode ls).length ≤ last) :
    ∃ c, copy 128 mem 12 last true true = some c ∧ (ls.length ≤ 127 → c.rc = .ok ∧ c.name = some (dotted ls)) ∧
      (127 < ls.length → c.rc = .error) := by
  obtain ⟨vs, hwalk, hlen, hroot⟩ := walk_encode h hwf hlast
  obtain ⟨c, hrun, hok, herr⟩ := copy_walk hwalk hroot
  exact ⟨c, hrun, fun h => hok (by omega), fun h => herr (by omega)⟩

-- The question that is sent is a sequence of labels, and ngx_resolver_copy reads the name in it.
def Encodes (name : Bytes) (r : Created) : Prop :=
  (∀ o ∈ r.query.writes, o < r.allocated) ∧ r.qlen ≤ r.allocated ∧
    ∃ ls, WellFormed ls ∧ r.qlen = 12 + (encode ls).length + 4 ∧ Holds r.query.mem 12 (encode ls) ∧
      ∃ c, copy 128 r.query.mem 12 r.qlen true true = some c ∧ c.rc = .ok ∧ c.name = some name

-- What a resolver can be asked: 127 labels of 63 bytes, and no dot in front.
def Encodable (name : Bytes) : Prop :=
  name.head? ≠ some 46 ∧ (∀ part ∈ name.splitOn 46, part.length ≤ 63) ∧ (name.splitOn 46).length ≤ 127

instance (name : Bytes) : Decidable (Encodable name) :=
  inferInstanceAs (Decidable (_ ∧ _ ∧ _))

theorem splitOn_dotted (hne : ls ≠ []) (hdots : ∀ l ∈ ls, 46 ∉ l) : (dotted ls).splitOn 46 = ls := by
  have hd : dotted ls = [46].intercalate ls := by
    clear hdots
    induction ls with
    | nil => exact absurd rfl hne
    | cons l ls ih =>
        cases ls with
        | nil => simp [dotted]
        | cons k ls =>
            rw [dotted_cons l (List.cons_ne_nil _ _), ih (List.cons_ne_nil _ _)]
            simp [List.intercalate_cons_cons]
  rw [hd, List.splitOn_intercalate 46 hdots hne]

theorem span_le (h : WellFormed ls) : span ls ≤ 64 * ls.length := by
  induction ls with
  | nil => simp
  | cons l ls ih =>
      have hl := (h l List.mem_cons_self).2
      have hrest := ih fun k hk => h k (List.mem_cons_of_mem _ hk)
      rw [span_cons, List.length_cons]
      omega

theorem createNameQuery_exact (name : Bytes) (type ident : Nat) (alloc : Bool)
    (hok : (createNameQuery mem alloc name type ident).rc = .ok) :
    Encodes name (createNameQuery mem alloc name type ident) ↔ Encodable name := by
  obtain ⟨ps, hq⟩ := createNameQuery_question hok
  generalize createNameQuery mem alloc name type ident = r at hq
  constructor
  · rintro ⟨_, hqlen, ls, hwf, hlen, hheld, c, hrun, hrc, htext⟩
    by_cases hname : name = []
    · subst hname
      decide
    have hps := mt hq.empty.mp hname
    obtain ⟨c', hrun', hfits, hover⟩ := copy_encode hheld hwf (show 12 + (encode ls).length ≤ r.qlen by omega)
    have hc := Option.some.inj (hrun.symm.trans hrun')
    subst hc
    have hcount : ls.length ≤ 127 := by
      refine Nat.le_of_not_lt fun h => ?_
      rw [hover h] at hrc
      exact Rc.noConfusion hrc
    have hname' : dotted ls = name := Option.some.inj ((hfits hcount).2.symm.trans htext)
    have hls : ls ≠ [] := by
      rintro rfl
      exact hname hname'.symm
    -- both are read from the same offset, and are as long as the name
    have hsize : (encode ls).length = (encode ps).length := by
      have h1 := dotted_length hls
      have h2 := dotted_length hps
      rw [hname'] at h1
      rw [hq.text] at h2
      rw [encode_length, encode_length]
      omega
    have henc : encode ls = encode ps := by
      rw [← show load r.query.mem 12 (encode ls).length = encode ls from hheld, hsize]
      exact hq.held
    have heq := encode_unique henc (hname'.trans hq.text.symm) hwf hq.dots
    subst heq
    have hsplit := splitOn_dotted hls hq.dots
    rw [hq.text] at hsplit
    refine ⟨?_, fun part hpart => ?_, by rw [hsplit]; exact hcount⟩
    · rw [← hq.text]
      exact dotted_head (fun l hl => (hwf l hl).1) hq.dots
    · rw [hsplit] at hpart
      exact Nat.le_of_lt_succ (hwf part hpart).2
  · rintro ⟨hhead, hlong, hcount⟩
    have hwf : WellFormed ps ∧ ps.length ≤ 127 := by
      cases ps with
      | nil => exact ⟨by simp [WellFormed], by simp⟩
      | cons k ps =>
          have hsplit := splitOn_dotted (List.cons_ne_nil k ps) hq.dots
          rw [hq.text] at hsplit
          rw [hsplit] at hlong hcount
          refine ⟨fun l hl => ⟨?_, Nat.lt_succ_of_le (hlong l hl)⟩, hcount⟩
          cases List.mem_cons.mp hl with
          | inr h => exact hq.inner l h
          | inl h =>
              -- an empty part in front is a dot in front, or the whole name
              rintro rfl
              subst h
              have htext := hq.text
              cases ps with
              | nil =>
                  have hnil := hq.empty.mpr htext.symm
                  exact absurd hnil (List.cons_ne_nil _ _)
              | cons k ps =>
                  rw [dotted_cons [] (List.cons_ne_nil _ _)] at htext
                  rw [← htext] at hhead
                  exact hhead rfl
    have hspan := span_le hwf.1
    have hlen := encode_length ps
    have hqlen : r.qlen = 12 + (encode ps).length + 4 := by
      rw [hq.sent, hq.size]
      omega
    obtain ⟨c, hrun, hfits, _⟩ := copy_encode hq.held hwf.1 (show 12 + (encode ps).length ≤ r.qlen by omega)
    refine ⟨hq.written, ?_, ps, hwf.1, hqlen, hq.held, c, hrun, (hfits hwf.2).1, ?_⟩
    · rw [hq.sent]
      exact Nat.mod_le _ _
    · rw [(hfits hwf.2).2, hq.text]

-- "a.b"
theorem createNameQuery_exact_short :
    Encodes [97, 46, 98] (createNameQuery (fun _ => 0) true [97, 46, 98] 1 7) ↔ Encodable [97, 46, 98] :=
  createNameQuery_exact [97, 46, 98] 1 7 true (by decide)

-- ".a" makes a query for the root.
theorem leading_dot_encodes_root : ¬ ∀ mem name type ident alloc,
    (createNameQuery mem alloc name type ident).rc = .ok →
      Encodes name (createNameQuery mem alloc name type ident) := by
  intro h
  obtain ⟨_, _, _, _, _, _, c, hrun, _, htext⟩ := h (fun _ => 0) [46, 97] 1 7 true (by decide)
  have hroot : (copy 128 (createNameQuery (fun _ => 0) true [46, 97] 1 7).query.mem 12
      (createNameQuery (fun _ => 0) true [46, 97] 1 7).qlen true true).bind Copied.name = some [] := by
    decide
  rw [hrun, Option.bind_some, htext] at hroot
  exact absurd hroot (by decide)

end Nginx.Core.Resolver
