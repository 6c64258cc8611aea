import Mathlib
import SylixOS.Lib.Prefixes
import SylixOS.Lib.Sizes

/-! # The trie of the history

Each node has an array of 256 children, which is there once a string has gone through the node. A
node counts the strings that went through it, up to what 15 bits hold, and remembers the child that
was used most. The compiler takes a `CHAR` as signed: a byte from 128 on is an index in front of the
array.
-/

namespace SylixOS.Tree
open Lib

abbrev Byte := Fin 256

/-- Where a `CHAR` finds a child. No result means that it lies outside of the array. -/
def slot (c : Byte) : Option Byte := if c < 128 then some c else none

/-- `LW_TRIE_NODE`. A node that is not valid is as it was initialised, and the most frequently used
character is not set before a child has been used. -/
inductive TrieNode where
  | invalid
  | valid (isEnd : Bool) (frequence maxFrequence : ℕ) (mostFrequentlyUsedChar : Option Byte)
      (child : Byte → TrieNode)

/-- The largest frequency. -/
def maxFreq : ℕ := 32767

namespace TrieNode

def isValid : TrieNode → Bool
  | invalid => false
  | valid .. => true

def isEnd : TrieNode → Bool
  | invalid => false
  | valid e _ _ _ _ => e

def frequence : TrieNode → ℕ
  | invalid => 0
  | valid _ f _ _ _ => f

def maxFrequence : TrieNode → ℕ
  | invalid => 0
  | valid _ _ m _ _ => m

def mostFrequentlyUsedChar : TrieNode → Option Byte
  | invalid => none
  | valid _ _ _ b _ => b

def child : TrieNode → Byte → TrieNode
  | invalid, _ => invalid
  | valid _ _ _ _ ch, i => ch i

end TrieNode

open TrieNode

/-- `__trieGetRoot`. -/
def trieGetRoot : TrieNode := valid false 0 0 none fun _ => invalid

/-- A frequency with one more use. -/
def use (f : ℕ) : ℕ := if f = maxFreq then maxFreq else f + 1

/-- The end of `__trieInsert` at a node whose child has been used. -/
def used (isEnd : Bool) (f m : ℕ) (b : Option Byte) (ch : Byte → TrieNode) (i : Byte) : TrieNode :=
  if (ch i).frequence ≥ m then valid isEnd f (ch i).frequence (some i) ch else valid isEnd f m b ch

/-- `__trieInsert`. No result means that a child outside of the array is written. -/
def trieInsert : List Byte → TrieNode → Option TrieNode
  | [], t => some (valid true (use t.frequence) t.maxFrequence t.mostFrequentlyUsedChar t.child)
  | c :: cs, t =>
    (slot c).bind fun i =>
      (trieInsert cs (t.child i)).map fun u =>
        used t.isEnd (use t.frequence) t.maxFrequence t.mostFrequentlyUsedChar
          (Function.update t.child i u) i

/-- The loop of `__trieSearch` behind the prefix. No result means that it leaves the nodes. -/
def mostUsed : TrieNode → Option (List Byte)
  | invalid => none
  | valid true _ _ _ _ => some []
  | valid false _ _ b ch =>
    (b.bind slot).bind fun i => (mostUsed (ch i)).map (i :: ·)

/-- `__trieSearch`: the null pointer, or a suffix. -/
def trieSearch : List Byte → TrieNode → Option (Option (List Byte))
  | [], t => if t.isValid then (mostUsed t).map some else some none
  | c :: cs, t =>
    if t.isValid then (slot c).bind fun i => trieSearch cs (t.child i) else some none

/-- The strings are inserted one after the other. -/
def insertAll (t : TrieNode) (ws : List (List Byte)) : Option TrieNode :=
  ws.foldlM (fun t w => trieInsert w t) t

/-- The node at the end of a path. -/
def TrieNode.at : TrieNode → List Byte → TrieNode
  | t, [] => t
  | t, c :: p => (t.child c).at p

end SylixOS.Tree
