/-!
# Huffman codes

A code is a binary tree with symbols at its leaves. `Tree.ofLengths` builds the canonical code of a
list of code lengths from the longest length up: the nodes at one depth are the symbols whose code
has that length, in symbol order, followed by the nodes that join the next depth's nodes in pairs.
-/

namespace GzipStream.Huffman

/-- A code tree; `hole` is a bit string that no symbol uses. -/
inductive Tree
  | hole
  | leaf (symbol : Nat)
  | node (zero one : Tree)
  deriving DecidableEq, Repr, Inhabited

/-- Joins neighbours under common parents; a last one without neighbour stands beside a hole. -/
def pairUp : List Tree → List Tree
  | a :: b :: rest => .node a b :: pairUp rest
  | [a] => [.node a .hole]
  | [] => []

/-- The symbols whose code length is `d`, in symbol order. -/
def leavesAt (lengths : List Nat) (d : Nat) : List Tree :=
  lengths.zipIdx.filterMap fun (l, s) => if l = d then some (.leaf s) else none

/-- The nodes at depth `d` of a code whose lengths are at most `d + below`. -/
def nodesAt (lengths : List Nat) : (below : Nat) → (d : Nat) → List Tree
  | 0, d => leavesAt lengths d
  | k + 1, d => leavesAt lengths d ++ pairUp (nodesAt lengths k (d + 1))

/-- Longest code length in a DEFLATE stream. -/
def maxLength : Nat := 15

/-- The canonical code of the given lengths, where 0 means that a symbol is not used. -/
def Tree.ofLengths (lengths : List Nat) : Tree :=
  match nodesAt lengths (maxLength - 1) 1 with
  | a :: b :: _ => .node a b
  | [a] => .node a .hole
  | [] => .node .hole .hole

/-- Share of the code space taken by all symbols, in units of a longest code. -/
def codeSpace : (lengths : List Nat) → Nat
  | [] => 0
  | l :: ls => (if l = 0 then 0 else Nat.pow 2 (maxLength - l)) + codeSpace ls

/-- The whole code space. -/
def fullSpace : Nat := Nat.pow 2 maxLength

/-- No bit string is left over, and none is used twice. -/
def isComplete (lengths : List Nat) : Bool := codeSpace lengths == fullSpace

def longest (lengths : List Nat) : Nat := lengths.foldl max 0

/-- A set of lengths that a stream may declare for its symbols: complete, or without codes, or with
no code longer than one bit and room left. -/
def isUsable (lengths : List Nat) : Bool :=
  isComplete lengths || (codeSpace lengths < fullSpace && longest lengths ≤ 1)

end GzipStream.Huffman
