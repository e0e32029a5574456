import GzipStream.Bytes

/-!
# Places to copy from

A finder remembers at which positions of the data a short run of bytes was seen. Asked about a
position it compares the data there with earlier places and proposes the one that agrees longest.
A proposal is only a hint: whoever copies compares the bytes again, so nothing depends on what
the tables hold.
-/

namespace GzipStream.Deflate

/-- How many bytes from `i` on, at most `limit`, agree with those from `j` on. -/
def agreement (data : Array UInt8) (i j : Nat) : (limit : Nat) → Nat
  | 0 => 0
  | n + 1 => if data.getD i 0 = data.getD j 0 then agreement data (i + 1) (j + 1) n + 1 else 0

/-- An earlier position and the number of bytes that agree there. -/
structure Place where
  position : Nat := 0
  length : Nat := 0
  deriving DecidableEq, Repr, Inhabited

/-- The better of a place and position `j`. A position that differs right behind the bytes that
agree at the place is no better. -/
def Place.improve (data : Array UInt8) (reach i limit : Nat) (best : Place) (j : Nat) : Place :=
  if j < i && i - j ≤ reach && data.getD (i + best.length) 0 == data.getD (j + best.length) 0 then
    let n := agreement data i j limit
    if best.length < n then ⟨j, n⟩ else best
  else best

/-- Positions are noted in the order in which they come, each one more than it is, so that 0 is
none. -/
structure Finder where
  /-- first position that was noted -/
  base : Nat
  /-- last position for each slot of three bytes -/
  heads : Array Nat
  /-- for every position the one before it in the same slot -/
  links : Array Nat := #[]
  /-- last position for each slot of sixteen bytes -/
  distant : Array Nat
  deriving DecidableEq, Repr, Inhabited

namespace Finder

/-- A finder for positions from `base` on, with tables of the given size. -/
def start (base size : Nat) : Finder where
  base := base
  heads := Array.replicate size 0
  distant := Array.replicate size 0

/-- Mixes `n` bytes from position `i` on into `word`. -/
def mix (data : Array UInt8) (word : UInt32) (i : Nat) : (n : Nat) → UInt32
  | 0 => word
  | n + 1 => mix data ((word ^^^ (data.getD i 0).toUInt32) * 16777619) (i + 1) n

/-- The slot of the `n` bytes at `i` in a table of the given size. -/
def slot (data : Array UInt8) (size n i : Nat) : Nat :=
  ((mix data 2166136261 i n) >>> 5).toNat % size

/-- Notes position `i`, which is the one behind the last. -/
def note (f : Finder) (data : Array UInt8) (i : Nat) : Finder :=
  match f with
  | ⟨base, heads, links, distant⟩ =>
    let s := slot data heads.size 3 i
    let before := heads.getD s 0
    let t := slot data distant.size 16 i
    ⟨base, heads.setIfInBounds s (i + 1), links.push before, distant.setIfInBounds t (i + 1)⟩

/-- Notes the `n` positions from `i` on. -/
def noteAll (f : Finder) (data : Array UInt8) (i : Nat) : (n : Nat) → Finder
  | 0 => f
  | n + 1 => noteAll (f.note data i) data (i + 1) n

/-- Follows the positions of one slot from the last one back. -/
def follow (f : Finder) (data : Array UInt8) (reach i limit : Nat) :
    (tries : Nat) → (noted : Nat) → Place → Place
  | 0, _, best => best
  | tries + 1, noted, best =>
    if noted = 0 || limit ≤ best.length || noted + reach < i + 1 then best
    else
      follow f data reach i limit tries (f.links.getD (noted - 1 - f.base) 0)
        (best.improve data reach i limit (noted - 1))

/-- Positions of one slot that are compared. -/
def depth : Nat := 128

/-- Where to copy the bytes at `i` from, at most `limit` of them and from at most `reach` back. -/
def propose (f : Finder) (data : Array UInt8) (reach i limit : Nat) : Nat :=
  let known := f.distant.getD (slot data f.distant.size 16 i) 0
  let best : Place := if known = 0 then {} else Place.improve data reach i limit {} (known - 1)
  let last := f.heads.getD (slot data f.heads.size 3 i) 0
  (f.follow data reach i limit depth last best).position

end Finder

end GzipStream.Deflate
