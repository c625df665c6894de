import Nginx.Core.Printf
import Nginx.Library.ByteMemory

namespace Nginx.Printf

open ByteMemory

-- The memory and the pointer buf
structure Dst where
  mem : Memory
  buf : Nat

-- *buf++ = c;
def Dst.push (c : UInt8) (d : Dst) : Dst := ⟨store d.mem d.buf [c], d.buf + 1⟩

-- ngx_cpymem(buf, v, len), where v has the length len
def Dst.cpymem (v : Bytes) (d : Dst) : Dst := ⟨store d.mem d.buf v, d.buf + v.length⟩

-- while (len++ < width && buf < last) { *buf++ = zero; }
def padAt (last : Nat) (zero : UInt8) : Nat → Dst → Dst
  | 0, d => d
  | n + 1, d => if d.buf < last then padAt last zero n (d.push zero) else d

-- ngx_sprintf_num
def sprintfNumAt (last ui64 : Nat) (zero : UInt8) (hex width : Nat) (d : Dst) : Dst :=
  let p := temp (if hex = 0 then 10 else 16) hex int64Len ui64 []
  let d := padAt last zero (width - p.length) d
  let len := if last < d.buf + p.length then last - d.buf else p.length
  d.cpymem (p.take len)

-- while (*p && buf < last) { *buf++ = *p++; }
def copyCstrAt (last : Nat) : Bytes → Dst → Option Dst
  | [], _ => none
  | c :: p, d => if c = 0 then some d else if d.buf < last then copyCstrAt last p (d.push c) else some d

-- What an iteration stores at buf, which is in front of last.
def putAt (last : Nat) (d : Dst) : Item → Option Dst
  | .copy v => some (d.cpymem (v.take (min (last - d.buf) v.length)))
  | .copyN p n =>
      let len := min (last - d.buf) n
      if len ≤ p.length then some (d.cpymem (p.take len)) else none
  | .cstr p => copyCstrAt last p d
  | .num neg ui64 zero hex width => some (sprintfNumAt last ui64 zero hex width (if neg then d.push 45 else d))
  | .char c => some (d.push c)

def loopAt (last : Nat) : Nat → Bytes → List Arg → Dst → Option Dst
  | 0, _, _, d => some d
  | n + 1, fmt, args, d =>
      if fmt ≠ [] ∧ d.buf < last then do
        let (item, fmt, args) ← next fmt args
        let d ← putAt last d item
        loopAt last n fmt args d
      else some d

-- ngx_vslprintf
def vslprintfAt (last : Nat) (fmt : Bytes) (args : List Arg) (d : Dst) : Option Dst := loopAt last fmt.length fmt args d

-- An argument whose bytes can be read as the conversion reads them
def Item.Readable : Item → Prop
  | .copyN p n => n ≤ p.length
  | .cstr p => 0 ∈ p
  | _ => True

-- The arguments are those that the conversions of the format take.
inductive Matches : Bytes → List Arg → Prop where
  | done (args : List Arg) : Matches [] args
  | item {fmt fmt' : Bytes} {args args' : List Arg} {i : Item} (hn : next fmt args = some (i, fmt', args'))
      (hi : i.Readable) (hr : Matches fmt' args') : Matches fmt args

theorem Matches.renders {fmt : Bytes} {args : List Arg} (h : Matches fmt args) : ∃ w, Renders fmt args w := by
  induction h with
  | done args => exact ⟨[], .done args⟩
  | @item fmt fmt' args args' i hn hi hr ih =>
      obtain ⟨rest, hrest⟩ := ih
      cases i with
      | copy v => exact ⟨_, .item hn rfl hrest⟩
      | copyN p n => exact ⟨_, .item hn (if_pos hi) hrest⟩
      | cstr p => exact ⟨_, .item hn (if_pos hi) hrest⟩
      | num neg ui64 zero hex width => exact ⟨_, .item hn rfl hrest⟩
      | char c => exact ⟨_, .item hn rfl hrest⟩

theorem cpymem_append (v w : Bytes) (d : Dst) : (d.cpymem v).cpymem w = d.cpymem (v ++ w) := by
  simp only [Dst.cpymem, store_append, List.length_append, Nat.add_assoc]

theorem push_eq (c : UInt8) (d : Dst) : d.push c = d.cpymem [c] := rfl

theorem cpymem_nil (d : Dst) : d.cpymem [] = d := by simp [Dst.cpymem, store_nil]

theorem padAt_eq (last n : Nat) (zero : UInt8) (d : Dst) :
    padAt last zero n d = d.cpymem (List.replicate (min n (last - d.buf)) zero) := by
  induction n generalizing d with
  | zero => simp [padAt, cpymem_nil]
  | succ n ih =>
      rw [padAt]
      by_cases hroom : d.buf < last
      · have hmin : min (n + 1) (last - d.buf) = min n (last - (d.push zero).buf) + 1 := by
          simp only [Dst.push]
          omega
        rw [if_pos hroom, ih, hmin, push_eq, cpymem_append, List.replicate_succ]
        rfl
      · have hmin : min (n + 1) (last - d.buf) = 0 := by omega
        rw [if_neg hroom, hmin, List.replicate_zero, cpymem_nil]

theorem sprintfNumAt_eq (last ui64 : Nat) (zero : UInt8) (hex width : Nat) (d : Dst) :
    sprintfNumAt last ui64 zero hex width d = d.cpymem (sprintfNum (last - d.buf) ui64 zero hex width) := by
  simp only [sprintfNumAt, sprintfNum, padAt_eq, cpymem_append]
  generalize temp (if hex = 0 then 10 else 16) hex int64Len ui64 [] = p
  congr 2
  simp only [Dst.cpymem, List.length_replicate]
  split
  · congr 1
    omega
  · rw [List.take_of_length_le (Nat.le_refl _), List.take_of_length_le (by omega)]

theorem copyCstrAt_eq (last : Nat) (p : Bytes) (d : Dst) :
    copyCstrAt last p d = (copyCstr (last - d.buf) p).map d.cpymem := by
  induction p generalizing d with
  | nil => cases last - d.buf <;> rfl
  | cons c p ih =>
      rw [copyCstrAt]
      by_cases hroom : d.buf < last
      · obtain ⟨room, hr⟩ : ∃ room, last - d.buf = room + 1 := ⟨last - d.buf - 1, by omega⟩
        have hnext : last - (d.push c).buf = room := by
          simp only [Dst.push]
          omega
        rw [hr, copyCstr]
        by_cases hc : c = 0
        · rw [if_pos hc, if_pos hc, Option.map_some, cpymem_nil]
        · rw [if_neg hc, if_neg hc, if_pos hroom, ih, hnext]
          cases copyCstr room p with
          | none => rfl
          | some w => simp [push_eq, cpymem_append]
      · have hr : last - d.buf = 0 := by omega
        rw [hr, copyCstr, if_neg hroom, Option.map_some, cpymem_nil]
        split <;> rfl

-- The writes in memory are those of put.
theorem putAt_eq (last : Nat) (d : Dst) (i : Item) : putAt last d i = (put (last - d.buf) i).map d.cpymem := by
  cases i with
  | copy v => rfl
  | copyN p n =>
      simp only [putAt, put]
      split <;> rfl
  | cstr p => exact copyCstrAt_eq last p d
  | num neg ui64 zero hex width =>
      simp only [putAt, put, sprintfNumAt_eq, Option.map_some]
      cases neg with
      | true =>
          have hroom : last - (d.cpymem [45]).buf = last - d.buf - 1 := by simp only [Dst.cpymem, List.length_singleton, Nat.sub_sub]
          rw [if_pos rfl, if_pos rfl, push_eq, cpymem_append, hroom]
          rfl
      | false => rfl
  | char c => rfl

theorem loopAt_eq (last n : Nat) (fmt : Bytes) (args : List Arg) (d : Dst) :
    loopAt last n fmt args d = (loop n (last - d.buf) fmt args).map d.cpymem := by
  induction n generalizing fmt args d with
  | zero => simp [loopAt, loop, cpymem_nil]
  | succ n ih =>
      rw [loopAt, loop]
      by_cases hend : fmt ≠ [] ∧ d.buf < last
      · have hgo : ¬(fmt = [] ∨ last - d.buf = 0) := by
          rintro (hnil | hroom)
          · exact hend.1 hnil
          · omega
        rw [if_pos hend, if_neg hgo]
        cases hnext : next fmt args with
        | none => rfl
        | some out =>
            obtain ⟨item, fmt', args'⟩ := out
            simp only [Option.bind_eq_bind, Option.bind_some, putAt_eq]
            cases hput : put (last - d.buf) item with
            | none => rfl
            | some w =>
                have hroom : last - (d.cpymem w).buf = last - d.buf - w.length := by simp only [Dst.cpymem, Nat.sub_sub]
                simp only [Option.map_some, Option.bind_some, ih, hroom]
                cases loop n (last - d.buf - w.length) fmt' args' with
                | none => rfl
                | some rest => simp [cpymem_append]
      · have hstop : fmt = [] ∨ last - d.buf = 0 := by
          by_cases hnil : fmt = []
          · exact Or.inl hnil
          · have hroom : ¬d.buf < last := fun h => hend ⟨hnil, h⟩
            exact Or.inr (by omega)
        rw [if_neg hend, if_pos hstop, Option.map_some, cpymem_nil]

theorem vslprintfAt_eq (last : Nat) (fmt : Bytes) (args : List Arg) (d : Dst) :
    vslprintfAt last fmt args d = (vslprintf (last - d.buf) fmt args).map d.cpymem :=
  loopAt_eq last fmt.length fmt args d

-- What is written to a buffer with room for all of it is cut at the end of another one.
theorem vslprintf_bounded {fmt : Bytes} {args : List Arg} (h : Matches fmt args) :
    ∃ w : Bytes, (∀ mem buf last, buf + w.length ≤ last →
        vslprintfAt last fmt args ⟨mem, buf⟩ = some ⟨store mem buf w, buf + w.length⟩) ∧
      ∀ mem buf last, ∃ out, vslprintfAt last fmt args ⟨mem, buf⟩ = some out ∧
        out.buf = buf + (w.take (last - buf)).length ∧ out.mem = store mem buf (w.take (last - buf)) ∧
        ∀ p, last ≤ p → out.mem p = mem p := by
  obtain ⟨w, hw⟩ := h.renders
  have hrun : ∀ mem buf last, vslprintfAt last fmt args ⟨mem, buf⟩ =
      some ⟨store mem buf (w.take (last - buf)), buf + (w.take (last - buf)).length⟩ := by
    intro mem buf last
    rw [vslprintfAt_eq, vslprintf_eq_take hw]
    rfl
  refine ⟨w, fun mem buf last hroom => ?_, fun mem buf last => ⟨_, hrun mem buf last, rfl, rfl, fun p hp => ?_⟩⟩
  · rw [hrun, List.take_of_length_le (by omega)]
  · have houtside : ¬(buf ≤ p ∧ p < buf + (w.take (last - buf)).length) := by
      rw [List.length_take]
      omega
    exact if_neg houtside

theorem vslprintf_bounded_size : ∃ w : Bytes,
    (∀ mem buf last, buf + w.length ≤ last →
      vslprintfAt last (ngxString "%uz!") [.word 12] ⟨mem, buf⟩ = some ⟨store mem buf w, buf + w.length⟩) ∧
    ∀ mem buf last, ∃ out, vslprintfAt last (ngxString "%uz!") [.word 12] ⟨mem, buf⟩ = some out ∧
      out.buf = buf + (w.take (last - buf)).length ∧ out.mem = store mem buf (w.take (last - buf)) ∧
      ∀ p, last ≤ p → out.mem p = mem p :=
  vslprintf_bounded
    (.item (show next (ngxString "%uz!") [.word 12] = some (.num false 12 32 0 0, [33], []) from rfl) trivial
      (.item (show next [33] [] = some (.char 33, [], []) from rfl) trivial (.done [])))

end Nginx.Printf
