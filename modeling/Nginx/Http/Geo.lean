import Nginx.Library.IntervalList

namespace Nginx.Geo

open IntervalList

variable {V : Type}

-- ngx_http_geo_range_t; the ends are of type u_short.
abbrev Range (V : Type) := Entry V

def ushort (n : ℕ) : ℕ := n % 65536

-- The table of ctx->high.low: the array of each block of 65536 addresses.
abbrev Low (V : Type) := ℕ → Option (List (Range V))

-- The message tells the block and the ends of the range that is in the way.
structure Overlap where
  h : ℕ
  start : ℕ
  stop : ℕ
  deriving DecidableEq

-- A line that ngx_http_geo_range has read: two addresses in host order and the value.
structure Line (V : Type) where
  start : ℕ
  stop : ℕ
  value : V
  ordered : start ≤ stop
  bounded : stop < 2 ^ 32

-- The loop over the array of a block from its end. What is still to be looked at comes first, the last
-- element before the others; what has been passed follows in the order of the array.
def place (value : V) (s e : ℕ) : List (Range V) → List (Range V) → Except (ℕ × ℕ) (List (Range V))
  -- add the first range
  | [], passed => .ok (passed ++ [⟨value, ushort s, ushort e⟩])
  | r :: before, passed =>
      if e < r.start then place value s e before (r :: passed)
      -- add after the range
      else if r.stop < s then .ok (before.reverse ++ (r :: ⟨value, ushort s, ushort e⟩ :: passed))
      else if s = r.start ∧ e = r.stop then .ok (before.reverse ++ ({ r with value := value } :: passed))
      -- split the range and insert the new one
      else if r.start < s ∧ e < r.stop then
        .ok (before.reverse ++ ({ r with stop := ushort (s - 1) } :: ⟨value, ushort s, ushort e⟩ ::
          ⟨r.value, ushort (e + 1), r.stop⟩ :: passed))
      -- shift the range start and insert the new range
      else if s = r.start ∧ e < r.stop then
        .ok (before.reverse ++ (⟨value, ushort s, ushort e⟩ :: { r with start := ushort (e + 1) } :: passed))
      -- shift the range end and insert the new range
      else if r.start < s ∧ e = r.stop then
        .ok (before.reverse ++ ({ r with stop := ushort (s - 1) } :: ⟨value, ushort s, ushort e⟩ :: passed))
      else .error (r.start, r.stop)

def put (low : Low V) (h : ℕ) (a : List (Range V)) : Low V := fun k => if k = h then some a else low k

-- The loop of ngx_http_geo_add_range. It has no result while the fuel does not suffice.
def addRange (line : Line V) : ℕ → Low V → ℕ → Option (Except Overlap (Low V))
  | 0, _, _ => none
  | fuel + 1, low, n =>
      if n ≤ line.stop then
        let h := n >>> 16
        let s := if n = line.start then n &&& 0xffff else 0
        let e := if line.stop < n ||| 0xffff then line.stop &&& 0xffff else 0xffff
        match place line.value s e ((low h).getD []).reverse [] with
        | .error (start, stop) => some (.error ⟨h, start, stop⟩)
        | .ok a => addRange line fuel (put low h a) ((n + 0x10000) % 2 ^ 32 &&& 0xffff0000)
      else some (.ok low)

-- The loop of ngx_http_geo_range_variable over an array with a NULL value behind its last element. It
-- looks at one element before it looks for the end.
def scan (n : ℕ) : List (Range V) → Option (Option V)
  | [] => none
  | [r] => some (if r.start ≤ n ∧ n ≤ r.stop then some r.value else none)
  | r :: rest => if r.start ≤ n ∧ n ≤ r.stop then some (some r.value) else scan n rest

-- ngx_http_geo_range_variable; there is no result where a NULL or a range that is none is read.
def rangeVariable (defaultValue : Option V) (low : Low V) (addr : ℕ) : Option V := do
  let v ← defaultValue
  match low (addr >>> 16) with
  | none => return v
  | some range => return (← scan (addr &&& 0xffff) range).getD v

end Nginx.Geo
