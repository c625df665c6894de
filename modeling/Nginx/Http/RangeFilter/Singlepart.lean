import Nginx.Http.RangeFilter
import Nginx.Library.Window

namespace Nginx

open ByteMemory

variable {w : World}

theorem Buf.Wf.retreat_bytes {b : Buf} (h : b.Wf w) (n : Nat) :
    (b.retreat n).bytes w = (b.bytes w).take (b.size - n) := by
  have hmemory : (b.retreat n).inMemory = b.inMemory := rfl
  unfold Buf.bytes
  rw [hmemory]
  cases hmem : b.inMemory with
  | true =>
      simp only [Buf.size, hmem, if_true]
      simp only [Buf.retreat, hmem, if_true]
      rw [← load_take _ _ _ _ (Nat.sub_le _ n)]
      congr 1
      omega
  | false =>
      simp only [Buf.size, hmem, Bool.false_eq_true, if_false]
      cases hfile : b.inFile with
      | true =>
          simp only [Buf.retreat, hfile, if_true]
          rw [← load_take _ _ _ _ (Nat.sub_le _ n)]
          congr 1
          omega
      | false =>
          have hplace := h.place hmem hfile
          have hzero : b.fileLast - b.filePos = 0 := by omega
          simp only [Buf.retreat, hfile, Bool.false_eq_true, if_false]
          rw [hzero, Nat.zero_sub]
          rfl

namespace RangeFilter

open Window

-- What is passed on of a buf
def trim (range : Range) (offset : Int) (b : Buf) : Buf :=
  if range.start > offset then b.advance (range.start - offset).toNat else b

variable {range : Range} {offset : Int}

theorem trim_bytes {b : Buf} (h : b.Wf w) (hstart : range.start ≤ offset + b.size) :
    (trim range offset b).Wf w ∧ (trim range offset b).bytes w = (b.bytes w).drop (range.start - offset).toNat := by
  unfold trim
  split
  · have hle : (range.start - offset).toNat ≤ b.size := by omega
    exact ⟨h.advance hle, h.advance_bytes hle⟩
  · have hzero : (range.start - offset).toNat = 0 := by omega
    rw [hzero, List.drop_zero]
    exact ⟨h, rfl⟩

theorem special_bytes {chain : Chain} (hwf : ChainWf w chain) : chainBytes w (chain.filter Buf.special) = [] := by
  rw [chainBytes, List.flatMap_eq_nil_iff]
  intro b hb
  obtain ⟨hmem, hspecial⟩ := List.mem_filter.mp hb
  exact (hwf b hmem).special_bytes hspecial

-- A last_buf with all of the data in front of it
def Trailing (w : World) : Chain → Prop
  | [] => True
  | b :: chain => (b.lastBuf = true → chainBytes w chain = []) ∧ Trailing w chain

theorem Trailing.left {one two : Chain} (h : Trailing w (one ++ two)) : Trailing w one := by
  induction one with
  | nil => trivial
  | cons b one ih =>
      refine ⟨?_, ih h.2⟩
      intro hlast
      have hnil : chainBytes w (one ++ two) = [] := h.1 hlast
      rw [chainBytes_append] at hnil
      exact (List.append_eq_nil_iff.mp hnil).1

theorem Trailing.right {one two : Chain} (h : Trailing w (one ++ two)) : Trailing w two := by
  induction one with
  | nil => exact h
  | cons b one ih => exact ih h.2

theorem Trailing.none_before {one two : Chain} (h : Trailing w (one ++ two)) (hne : chainBytes w two ≠ []) :
    ∀ b ∈ one, b.lastBuf = false := by
  induction one with
  | nil => simp
  | cons b one ih =>
      intro c hc
      rcases List.mem_cons.mp hc with rfl | hc
      · cases hlast : c.lastBuf with
        | false => rfl
        | true =>
            have hnil : chainBytes w (one ++ two) = [] := h.1 hlast
            rw [chainBytes_append] at hnil
            exact absurd (List.append_eq_nil_iff.mp hnil).2 hne
      · exact ih h.2 c hc

theorem trailing_of_none {chain : Chain} (h : ∀ b ∈ chain, b.lastBuf = false) : Trailing w chain := by
  induction chain with
  | nil => trivial
  | cons b chain ih =>
      refine ⟨?_, ih (fun c hc => h c (List.mem_cons_of_mem _ hc))⟩
      intro hlast
      rw [h b List.mem_cons_self] at hlast
      cases hlast

-- Once the range is complete, only special bufs are passed on.
theorem singlepart_after (h : range.stop ≤ offset) (chain : Chain) :
    (singlepartBody range offset chain).out = chain.filter Buf.special ∧
      range.stop ≤ (singlepartBody range offset chain).offset := by
  induction chain generalizing offset with
  | nil => exact ⟨rfl, h⟩
  | cons b chain ih =>
      obtain ⟨hout, hoffset⟩ := ih (show range.stop ≤ offset + b.size by omega)
      rw [singlepartBody]
      dsimp only
      split
      · rename_i hspecial
        rw [List.filter_cons_of_pos hspecial]
        exact ⟨congrArg (b :: ·) hout, hoffset⟩
      · rename_i hspecial
        rw [if_pos (Or.inl h), List.filter_cons_of_neg hspecial]
        exact ⟨hout, hoffset⟩

variable (w)

-- What a chain holds of the range
def Range.cut (range : Range) (offset : Int) (data : Bytes) : Bytes :=
  Window.cut range.start.toNat range.stop.toNat offset.toNat data

variable {w}

theorem Range.cut_append (h : 0 ≤ offset) (one two : Bytes) :
    range.cut offset (one ++ two) = range.cut offset one ++ range.cut (offset + one.length) two := by
  have hoffset : (offset + one.length).toNat = offset.toNat + one.length := by omega
  rw [Range.cut, Window.cut_append, Range.cut, Range.cut, hoffset]

theorem Range.cut_outside (hstart : 0 ≤ range.start) (h : 0 ≤ offset) (data : Bytes)
    (hout : range.stop ≤ offset ∨ range.start ≥ offset + data.length) : range.cut offset data = [] := by
  apply Window.cut_outside
  omega

theorem trim_cut {b : Buf} (h : b.Wf w) (hoffset : 0 ≤ offset) (hstart : range.start < offset + b.size) :
    range.stop > offset + b.size → (trim range offset b).bytes w = range.cut offset (b.bytes w) := by
  intro hstop
  rw [(trim_bytes h (by omega)).2, Range.cut, Window.cut, slice, List.take_of_length_le]
  · congr 1
    omega
  · rw [Buf.bytes_length]
    omega

theorem retreat_cut {b : Buf} (h : b.Wf w) (hoffset : 0 ≤ offset) (hstart : range.start < offset + b.size)
    (hrange : range.start < range.stop) (hbegun : offset < range.stop) (hstop : range.stop ≤ offset + b.size) :
    ((trim range offset b).retreat (offset + b.size - range.stop).toNat).bytes w = range.cut offset (b.bytes w) := by
  obtain ⟨hwf, hbytes⟩ := trim_bytes h (show range.start ≤ offset + b.size by omega)
  have hsize : (trim range offset b).size = b.size - (range.start - offset).toNat := by
    rw [← Buf.bytes_length (w := w), hbytes, List.length_drop, Buf.bytes_length]
  rw [hwf.retreat_bytes, hbytes, hsize, Range.cut, Window.cut, slice, List.drop_take]
  congr 1
  · omega
  · congr 1
    omega

-- A chain that ends before the range does
theorem singlepart_before (chain : Chain) (hwf : ChainWf w chain) (hstart : 0 ≤ range.start) (hoffset : 0 ≤ offset)
    (hlt : offset + (chainBytes w chain).length < range.stop) :
    chainBytes w (singlepartBody range offset chain).out = range.cut offset (chainBytes w chain) ∧
      (singlepartBody range offset chain).offset = offset + (chainBytes w chain).length ∧
      ((∀ b ∈ chain, b.lastBuf = false) → ∀ b ∈ (singlepartBody range offset chain).out, b.lastBuf = false) := by
  induction chain generalizing offset with
  | nil => exact ⟨by simp [singlepartBody, Range.cut], by simp [singlepartBody], by simp [singlepartBody]⟩
  | cons b chain ih =>
      obtain ⟨hb, hchain⟩ := ChainWf.cons.mp hwf
      have hlen : (chainBytes w (b :: chain)).length = b.size + (chainBytes w chain).length := by
        rw [chainBytes_cons, List.length_append, Buf.bytes_length]
      obtain ⟨hout, hlast, hnone⟩ := ih hchain (show 0 ≤ offset + b.size by omega) (by omega)
      have hcut : range.cut offset (chainBytes w (b :: chain)) =
          range.cut offset (b.bytes w) ++ range.cut (offset + b.size) (chainBytes w chain) := by
        rw [chainBytes_cons, Range.cut_append hoffset, Buf.bytes_length]
      have hoffsets : offset + b.size + (chainBytes w chain).length =
          offset + (chainBytes w (b :: chain)).length := by omega
      rw [hoffsets] at hlast
      rw [singlepartBody, hcut]
      dsimp only
      split
      · rename_i hspecial
        refine ⟨?_, hlast, ?_⟩
        · rw [show (Step.pass b _).out = b :: _ from rfl, chainBytes_cons, hout, hb.special_bytes hspecial]
          congr 1
          rw [Range.cut, Window.cut_nil]
        · intro hinput c hc
          rcases List.mem_cons.mp hc with rfl | hc
          · exact hinput c List.mem_cons_self
          · exact hnone (fun d hd => hinput d (List.mem_cons_of_mem _ hd)) c hc
      · split
        · rename_i houtside
          refine ⟨?_, hlast, ?_⟩
          · rw [Range.cut_outside hstart hoffset, List.nil_append]
            · exact hout
            · rw [Buf.bytes_length]
              exact houtside
          · exact fun hinput => hnone (fun d hd => hinput d (List.mem_cons_of_mem _ hd))
        · rename_i hinside
          rw [if_neg (by omega)]
          refine ⟨?_, hlast, ?_⟩
          · have htrim := trim_cut hb hoffset (show range.start < offset + b.size by omega) (by omega)
            rw [← htrim, ← hout]
            rfl
          · intro hinput c hc
            rcases List.mem_cons.mp hc with rfl | hc
            · have hsame : (trim range offset b).lastBuf = b.lastBuf := by
                unfold trim
                split <;> rfl
              rw [← hinput b List.mem_cons_self, ← hsame]
              rfl
            · exact hnone (fun d hd => hinput d (List.mem_cons_of_mem _ hd)) c hc

-- The chain in which the range ends: its last byte is in the last buf that is passed on.
theorem singlepart_complete (chain : Chain) (hwf : ChainWf w chain) (htrailing : Trailing w chain)
    (hstart : 0 ≤ range.start) (hrange : range.start < range.stop) (hoffset : 0 ≤ offset)
    (hbegun : offset < range.stop) (hle : range.stop ≤ offset + (chainBytes w chain).length) :
    chainBytes w (singlepartBody range offset chain).out = range.cut offset (chainBytes w chain) ∧
      range.stop ≤ (singlepartBody range offset chain).offset ∧
      ∃ front b, (singlepartBody range offset chain).out = front ++ [b] ∧ b.lastBuf = true ∧
        ∀ c ∈ front, c.lastBuf = false := by
  induction chain generalizing offset with
  | nil =>
      simp only [chainBytes_nil, List.length_nil] at hle
      omega
  | cons b chain ih =>
      obtain ⟨hb, hchain⟩ := ChainWf.cons.mp hwf
      have hlen : (chainBytes w (b :: chain)).length = b.size + (chainBytes w chain).length := by
        rw [chainBytes_cons, List.length_append, Buf.bytes_length]
      have hcut : range.cut offset (chainBytes w (b :: chain)) =
          range.cut offset (b.bytes w) ++ range.cut (offset + b.size) (chainBytes w chain) := by
        rw [chainBytes_cons, Range.cut_append hoffset, Buf.bytes_length]
      rw [singlepartBody, hcut]
      dsimp only
      by_cases hends : range.stop ≤ offset + b.size
      · have hspecial : ¬b.special = true := by
          intro hspecial
          have hbytes := congrArg List.length (hb.special_bytes hspecial)
          rw [Buf.bytes_length, List.length_nil] at hbytes
          omega
        rw [if_neg hspecial, if_neg (by omega), if_pos hends]
        refine ⟨?_, hends, [], _, rfl, rfl, by simp⟩
        rw [Range.cut_outside hstart (by omega) _ (Or.inl hends),
          ← retreat_cut hb hoffset (by omega) hrange hbegun hends]
        simp only [chainBytes_cons, chainBytes_nil]
        rfl
      · obtain ⟨hout, hstop, front, e, hfront, he, hnone⟩ :=
          ih hchain htrailing.2 (show 0 ≤ offset + b.size by omega) (by omega) (by omega)
        have hlast : b.lastBuf = false := by
          cases hlast : b.lastBuf with
          | false => rfl
          | true =>
              have hnil := congrArg List.length (htrailing.1 hlast)
              rw [List.length_nil] at hnil
              omega
        split
        · rename_i hspecial
          refine ⟨?_, hstop, b :: front, e, congrArg (b :: ·) hfront, he, ?_⟩
          · rw [show (Step.pass b _).out = b :: _ from rfl, chainBytes_cons, hout, hb.special_bytes hspecial]
            congr 1
            rw [Range.cut, Window.cut_nil]
          · intro c hc
            rcases List.mem_cons.mp hc with rfl | hc
            · exact hlast
            · exact hnone c hc
        · split
          · rename_i houtside
            refine ⟨?_, hstop, front, e, hfront, he, hnone⟩
            rw [Range.cut_outside hstart hoffset, List.nil_append]
            · exact hout
            · rw [Buf.bytes_length]
              exact houtside
          · rename_i hinside
            refine ⟨?_, hstop, trim range offset b :: front, e, congrArg (trim range offset b :: ·) hfront, he, ?_⟩
            · have htrim := trim_cut hb hoffset (show range.start < offset + b.size by omega) (by omega)
              rw [← htrim, ← hout]
              rfl
            · intro c hc
              rcases List.mem_cons.mp hc with rfl | hc
              · rw [← hlast]
                unfold trim
                split <;> rfl
              · exact hnone c hc

-- The body and one last_buf at its end, with nothing but empty bufs behind it
structure Delivered (w : World) (body : Bytes) (out : Chain) : Prop where
  bytes : chainBytes w out = body
  last : (out.filter Buf.lastBuf).length = 1
  trailing : Trailing w out

-- No last_buf stands alone in a call that comes after the range is complete.
def EndsInTime (stop : Int) : Int → List Chain → Prop
  | _, [] => True
  | offset, call :: calls =>
      (stop ≤ offset → ∀ b ∈ call, b.special = true → b.lastBuf = false) ∧
        EndsInTime stop (offset + (call.map Buf.size).sum) calls

theorem chainBytes_length (chain : Chain) : (chainBytes w chain).length = (chain.map Buf.size).sum := by
  induction chain with
  | nil => rfl
  | cons b chain ih => rw [chainBytes_cons, List.length_append, Buf.bytes_length, ih, List.map_cons, List.sum_cons]

-- The calls after the one that completes the range
theorem run_after (calls : List Chain) (hwf : ChainWf w calls.flatten) (seen : Int) (hseen : range.stop ≤ seen)
    (h : range.stop ≤ offset) :
    chainBytes w (singlepartRun range offset calls) = [] ∧
      ((∀ b ∈ singlepartRun range offset calls, b.lastBuf = false) ↔ EndsInTime range.stop seen calls) := by
  induction calls generalizing offset seen with
  | nil => exact ⟨rfl, by simp [singlepartRun, EndsInTime]⟩
  | cons call calls ih =>
      have hcall : ChainWf w call := fun b hb => hwf b (by simp [hb])
      have hcalls : ChainWf w calls.flatten := by
        intro b hb
        apply hwf b
        rw [List.flatten_cons]
        exact List.mem_append_right _ hb
      obtain ⟨hout, hoffset⟩ := singlepart_after h call
      obtain ⟨hbytes, hnone⟩ := ih hcalls (seen + (call.map Buf.size).sum) (by omega) hoffset
      rw [singlepartRun, hout, EndsInTime, ← hnone]
      refine ⟨?_, ?_⟩
      · rw [chainBytes_append, special_bytes hcall, hbytes, List.append_nil]
      · constructor
        · intro hall
          refine ⟨?_, fun b hb => hall b (List.mem_append_right _ hb)⟩
          intro _ b hb hspecial
          exact hall b (List.mem_append_left _ (List.mem_filter.mpr ⟨hb, hspecial⟩))
        · intro hall b hb
          rcases List.mem_append.mp hb with hb | hb
          · obtain ⟨hmem, hspecial⟩ := List.mem_filter.mp hb
            exact hall.1 hseen b hmem hspecial
          · exact hall.2 b hb

-- What a run passes on: the range with one last_buf at its end, and then special bufs.
theorem run_complete (calls : List Chain) (hwf : ChainWf w calls.flatten) (htrailing : Trailing w calls.flatten)
    (hstart : 0 ≤ range.start) (hrange : range.start < range.stop) (hoffset : 0 ≤ offset)
    (hbegun : offset < range.stop) (hle : range.stop ≤ offset + (chainBytes w calls.flatten).length) :
    ∃ front b rest, singlepartRun range offset calls = front ++ b :: rest ∧ b.lastBuf = true ∧
      (∀ c ∈ front, c.lastBuf = false) ∧
      chainBytes w (front ++ [b]) = range.cut offset (chainBytes w calls.flatten) ∧ chainBytes w rest = [] ∧
      ((∀ c ∈ rest, c.lastBuf = false) ↔ EndsInTime range.stop offset calls) := by
  induction calls generalizing offset with
  | nil =>
      simp only [List.flatten_nil, chainBytes_nil, List.length_nil] at hle
      omega
  | cons call calls ih =>
      rw [List.flatten_cons] at hwf htrailing hle ⊢
      rw [chainBytes_append, List.length_append] at hle
      have hcall : ChainWf w call := fun b hb => hwf b (List.mem_append_left _ hb)
      have hcalls : ChainWf w calls.flatten := fun b hb => hwf b (List.mem_append_right _ hb)
      have hcut : range.cut offset (chainBytes w (call ++ calls.flatten)) = range.cut offset (chainBytes w call) ++
          range.cut (offset + (chainBytes w call).length) (chainBytes w calls.flatten) := by
        rw [chainBytes_append, Range.cut_append hoffset]
      have hnotYet : range.stop ≤ offset → ∀ b ∈ call, b.special = true → b.lastBuf = false := by
        intro hle'
        omega
      rw [singlepartRun, hcut, EndsInTime, ← chainBytes_length call]
      by_cases hends : range.stop ≤ offset + (chainBytes w call).length
      · obtain ⟨hbytes, hstop, front, b, hout, hb, hnone⟩ :=
          singlepart_complete call hcall htrailing.left hstart hrange hoffset hbegun hends
        obtain ⟨hrest, hlate⟩ := run_after calls hcalls (offset + (chainBytes w call).length) hends hstop
        refine ⟨front, b, _, ?_, hb, hnone, ?_, hrest, ?_⟩
        · rw [hout, List.append_assoc]
          rfl
        · rw [← hout, hbytes, Range.cut_outside hstart (show 0 ≤ offset + (chainBytes w call).length by omega) _ (Or.inl hends),
            List.append_nil]
        · rw [hlate]
          exact ⟨fun h => ⟨hnotYet, h⟩, fun h => h.2⟩
      · obtain ⟨hbytes, hnext, hnone⟩ := singlepart_before call hcall hstart hoffset
          (show offset + (chainBytes w call).length < range.stop by omega)
        obtain ⟨front, b, rest, hrun, hb, hfront, hcarried, hrest, hlate⟩ :=
          ih hcalls htrailing.right (show 0 ≤ offset + (chainBytes w call).length by omega) (by omega) (by omega)
        have hmore : chainBytes w calls.flatten ≠ [] := by
          intro hnil
          rw [hnil, List.length_nil] at hle
          omega
        refine ⟨(singlepartBody range offset call).out ++ front, b, rest, ?_, hb, ?_, ?_, hrest, ?_⟩
        · rw [hnext, hrun, List.append_assoc]
        · intro c hc
          rcases List.mem_append.mp hc with hc | hc
          · exact hnone (htrailing.none_before hmore) c hc
          · exact hfront c hc
        · rw [List.append_assoc, chainBytes_append, hbytes, hcarried]
        · rw [hlate]
          exact ⟨fun h => ⟨hnotYet, h⟩, fun h => h.2⟩

-- A file and a memory that hold their addresses, and the first bytes of them as bufs
def world : World := ⟨UInt8.ofNat, fun _ => UInt8.ofNat⟩

def memoryBuf (pos last : Nat) : Buf := { Buf.empty with pos, last, memory := true }

def lastBuf : Buf := { Buf.empty with lastBuf := true }

theorem memoryBuf_wf (pos last : Nat) (h : pos ≤ last) : (memoryBuf pos last).Wf world :=
  ⟨fun _ => h, by simp [memoryBuf, Buf.empty], by simp [memoryBuf, Buf.inMemory], by simp [memoryBuf, Buf.empty]⟩

theorem lastBuf_wf : lastBuf.Wf world :=
  ⟨fun _ => Nat.le_refl 0, fun _ => Nat.le_refl 0, fun _ _ => Nat.le_refl 0, by decide⟩

end RangeFilter

end Nginx
