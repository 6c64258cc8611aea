import SylixOS.Tree.TrieSearch

/-! # The file of the trie

The trie is written one level after the other. A node is written as a record for each of its valid
children and a zero byte. A record holds the index of the child, its end mark, its two frequencies
and its most used character. A pointer of the lists of nodes is the path to its node. A byte that is
read back is taken as signed, and the value -1 stands for the end of the file.
-/

namespace SylixOS.Tree
open TrieNode

abbrev Path := List Byte

/-- The value of a `CHAR`. -/
def signed (b : Byte) : ℤ := if b < 128 then b.val else b.val - 256

def lowByte (f : ℕ) : Byte := Fin.ofNat 256 f

def highByte (f : ℕ) : Byte := Fin.ofNat 256 (f / 256)

/-- Two bytes of the file in a field of 15 bits. -/
def field (low high : Byte) : ℕ := ((signed low + signed high * 256) % 2 ^ 15).toNat

/-- The children of a node that are valid, in the order of their indices. -/
def children (t : TrieNode) (p : Path) : List Byte :=
  (List.finRange 256).filter fun i => (t.at (p ++ [i])).isValid

/-- What is written of a node behind its index. `junk` says what stands in the memory of a most used
character that was never set. -/
def nodeInfo (junk : Path → Byte) (t : TrieNode) (p : Path) : List Byte :=
  let u := t.at p
  [if u.isEnd then 1 else 0, lowByte u.frequence, highByte u.frequence, lowByte u.maxFrequence,
    highByte u.maxFrequence, u.mostFrequentlyUsedChar.getD (junk p)]

def writeNode (junk : Path → Byte) (t : TrieNode) (p : Path) : List Byte :=
  ((children t p).flatMap fun i => i :: nodeInfo junk t (p ++ [i])) ++ [0]

/-- The nodes below those of a level. -/
def nextLevel (t : TrieNode) (ps : List Path) : List Path :=
  ps.flatMap fun p => (children t p).map fun i => p ++ [i]

/-- The loop of `__trieToFile`. -/
def writeLevels (junk : Path → Byte) (t : TrieNode) : ℕ → List Path → Option (List Byte)
  | _, [] => some []
  | 0, _ :: _ => none
  | fuel + 1, p :: ps =>
    (writeLevels junk t fuel (nextLevel t (p :: ps))).map
      ((p :: ps).flatMap (writeNode junk t) ++ ·)

/-- The number of levels. -/
def depth : TrieNode → ℕ
  | invalid => 0
  | valid _ _ _ _ ch => ((List.finRange 256).map fun i => depth (ch i)).foldr max 0 + 1

/-- `__trieToFile`. -/
def trieToFile (junk : Path → Byte) (t : TrieNode) : Option (List Byte) :=
  writeLevels junk t (depth t + 1) [[]]

/-- The node at a path is replaced. -/
def TrieNode.put : TrieNode → Path → TrieNode → TrieNode
  | _, [], u => u
  | valid e f m b ch, c :: p, u => valid e f m b (Function.update ch c ((ch c).put p u))
  | invalid, _ :: _, _ => invalid

/-- `__trieNodeValidate`. -/
def validate (t : TrieNode) : TrieNode :=
  valid t.isEnd t.frequence t.maxFrequence t.mostFrequentlyUsedChar fun _ => invalid

/-- How the reading of a node, or of a level, ends. -/
inductive Load where
  /-- the function returns -/
  | stop (t : TrieNode)
  /-- the function returns, and it reports that the file has been edited -/
  | edited (t : TrieNode)
  | more (t : TrieNode) (next : List Path) (rest : List Byte)
  /-- a child outside of the array is written -/
  | undefined

/-- The records of the children of a node. -/
def readNode (p : Path) : TrieNode → List Path → List Byte → Load
  | t, _, [] => .stop t
  | t, next, c :: rest =>
    if signed c = -1 then .stop t
    else if c = 0 then .more t next rest
    else
      match slot c with
      | none => .undefined
      | some i =>
        match rest with
        | e :: f₀ :: f₁ :: m₀ :: m₁ :: b :: rest =>
          readNode p (t.put (p ++ [i])
            (valid (e.val % 2 = 1) (field f₀ f₁) (field m₀ m₁) (some b) fun _ => invalid))
            (next ++ [p ++ [i]]) rest
        | _ => .edited (t.put (p ++ [i]) (validate (t.at (p ++ [i]))))

def readLevel : List Path → TrieNode → List Path → List Byte → Load
  | [], t, next, rest => .more t next rest
  | p :: ps, t, next, rest =>
    match readNode p t next rest with
    | .more t next rest => readLevel ps t next rest
    | r => r

/-- The loop of `__trieFromFile`: whether it reports an error, and the trie. -/
def readLevels : ℕ → List Path → TrieNode → List Byte → Option (Bool × TrieNode)
  | _, [], t, _ => some (false, t)
  | 0, _ :: _, _, _ => none
  | fuel + 1, p :: ps, t, rest =>
    match readLevel (p :: ps) t [] rest with
    | .stop t => some (false, t)
    | .edited t => some (true, t)
    | .more t next rest => readLevels fuel next t rest
    | .undefined => none

/-- `__trieFromFile`, with the error that it reports. -/
def trieFromFileError (bytes : List Byte) : Option (Bool × TrieNode) :=
  readLevels (bytes.length + 1) [[]] trieGetRoot bytes

/-- `__trieFromFile`. -/
def trieFromFile (bytes : List Byte) : Option TrieNode := (trieFromFileError bytes).map Prod.snd

end SylixOS.Tree
