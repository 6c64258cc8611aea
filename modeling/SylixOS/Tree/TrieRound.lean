import SylixOS.Tree.TrieLoad

/-! # A trie and what is read back of it

Two tries answer alike for ever if their nodes have the same end marks, and those that are no ends
the same most used child and the same frequencies below them. A trie that was read back is alike as
long as the low bytes of these frequencies are below 128: the reader takes them as signed.
-/

namespace SylixOS.Tree
open Lib TrieNode Function

variable {t u t' u' : TrieNode} {junk : Path → Byte} {w p : List Byte} {ws vs : List (List Byte)}
  {c i : Byte}

/-- Two nodes that later uses cannot tell apart. -/
structure Peer (t u : TrieNode) : Prop where
  isValid : t.isValid = u.isValid
  isEnd : t.isEnd = u.isEnd
  most : t.isEnd = false → t.maxFrequence = u.maxFrequence ∧
    t.mostFrequentlyUsedChar = u.mostFrequentlyUsedChar ∧
    ∀ i, (t.child i).frequence = (u.child i).frequence

/-- All nodes below are alike. -/
def Alike (t u : TrieNode) : Prop := ∀ p, Peer (t.at p) (u.at p)

namespace Alike

theorem peer (h : Alike t u) : Peer t u := h []

theorem child (h : Alike t u) (i : Byte) : Alike (t.child i) (u.child i) := fun p => h (i :: p)

theorem of_child (h : Peer t u) (hchild : ∀ i, Alike (t.child i) (u.child i)) : Alike t u := fun p => by
  cases p with
  | nil => exact h
  | cons c p => exact hchild c p

end Alike

theorem trieInsert_frequence (h : trieInsert w t = some t') : t'.frequence = use t.frequence := by
  cases w with
  | nil =>
    cases h
    rfl
  | cons c w =>
    obtain ⟨i, -, h⟩ := Option.bind_eq_some_iff.mp h
    obtain ⟨v, -, rfl⟩ := Option.map_eq_some_iff.mp h
    unfold used
    split_ifs <;> rfl

/-- The used child is chosen in the same way. -/
theorem Peer.used (h : Peer t u) {v v' : TrieNode} (hv : v.frequence = use (t.child i).frequence)
    (hv' : v'.frequence = use (u.child i).frequence) {f f' : ℕ} :
    Peer (used t.isEnd f t.maxFrequence t.mostFrequentlyUsedChar (update t.child i v) i)
      (used u.isEnd f' u.maxFrequence u.mostFrequentlyUsedChar (update u.child i v') i) := by
  have hend {e : Bool} {g m : ℕ} {b : Option Byte} {ch : Byte → TrieNode} :
      (Tree.used e g m b ch i).isEnd = e := by
    unfold Tree.used
    split_ifs <;> rfl
  refine ⟨used_valid.trans used_valid.symm, by rw [hend, hend, h.isEnd], fun hopen => ?_⟩
  rw [hend] at hopen
  obtain ⟨hmax, hbest, hfreq⟩ := h.most hopen
  have hsame : v.frequence = v'.frequence := by rw [hv, hv', hfreq]
  have hchild (j : Byte) : (update t.child i v j).frequence =
      (update u.child i v' j).frequence := by
    by_cases hj : j = i
    · subst hj
      rw [update_self, update_self, hsame]
    · rw [update_of_ne hj, update_of_ne hj, hfreq]
  unfold Tree.used
  rw [update_self, update_self, hsame, hmax]
  split_ifs
  · exact ⟨rfl, rfl, hchild⟩
  · exact ⟨rfl, hbest, hchild⟩

/-- One insertion into both. -/
theorem Alike.trieInsert (h : Alike t u) (ht : Tree.trieInsert w t = some t')
    (hu : Tree.trieInsert w u = some u') : Alike t' u' := by
  induction w generalizing t u t' u' with
  | nil =>
    cases ht
    cases hu
    exact .of_child ⟨rfl, rfl, fun hopen => absurd hopen (by simp [TrieNode.isEnd])⟩ h.child
  | cons c w ih =>
    obtain ⟨i, hi, ht⟩ := Option.bind_eq_some_iff.mp ht
    obtain ⟨i', hi', hu⟩ := Option.bind_eq_some_iff.mp hu
    cases hi.symm.trans hi'
    obtain ⟨v, hv, rfl⟩ := Option.map_eq_some_iff.mp ht
    obtain ⟨v', hv', rfl⟩ := Option.map_eq_some_iff.mp hu
    refine .of_child (h.peer.used (trieInsert_frequence hv) (trieInsert_frequence hv')) fun j => ?_
    rw [used_child, used_child]
    by_cases hj : j = i
    · subst hj
      rw [update_self, update_self]
      exact ih (h.child j) hv hv'
    · rw [update_of_ne hj, update_of_ne hj]
      exact h.child j

theorem Alike.mostUsed (h : Alike t u) : mostUsed t = mostUsed u := by
  induction t generalizing u with
  | invalid =>
    cases u with
    | invalid => rfl
    | valid => cases h.peer.isValid
  | valid e f m b ch ih =>
    cases u with
    | invalid => cases h.peer.isValid
    | valid e' f' m' b' ch' =>
      have hend : e = e' := h.peer.isEnd
      subst hend
      cases e with
      | true => rfl
      | false =>
        have hbest : b = b' := (h.peer.most rfl).2.1
        subst hbest
        unfold Tree.mostUsed
        congr 1
        funext i
        rw [ih i (h.child i)]
        rfl

theorem Alike.trieSearch (h : Alike t u) : trieSearch p t = trieSearch p u := by
  induction p generalizing t u with
  | nil => rw [Tree.trieSearch, Tree.trieSearch, h.peer.isValid, h.mostUsed]
  | cons c p ih =>
    rw [Tree.trieSearch, Tree.trieSearch, h.peer.isValid]
    congr 1
    congr 1
    funext i
    exact ih (h.child i)

/-! ## From the root -/

/-- Two tries with the same nodes below their roots. -/
structure Twin (t u : TrieNode) : Prop where
  left : t.isValid = true
  right : u.isValid = true
  child : ∀ i, Alike (t.child i) (u.child i)

theorem insertAll_plain (t : TrieNode) (hvs : ∀ w ∈ vs, Plain w) : ∃ u, insertAll t vs = some u := by
  have hone (w : List Byte) (hw : Plain w) (t : TrieNode) : ∃ u, trieInsert w t = some u := by
    induction w generalizing t with
    | nil => exact ⟨_, rfl⟩
    | cons c w ih =>
      obtain ⟨u, hu⟩ := ih (fun d hd => hw d (List.mem_cons_of_mem c hd)) (t.child c)
      exact ⟨_, by rw [trieInsert, slot_of_lt (hw c List.mem_cons_self), Option.bind_some, hu]; rfl⟩
  induction vs generalizing t with
  | nil => exact ⟨t, rfl⟩
  | cons w vs ih =>
    obtain ⟨t', ht'⟩ := hone w (hvs w List.mem_cons_self) t
    obtain ⟨u, hu⟩ := ih t' fun v hv => hvs v (List.mem_cons_of_mem w hv)
    exact ⟨u, by unfold insertAll at hu ⊢; rw [List.foldlM_cons, ht']; exact hu⟩

theorem Twin.insertAll (h : Twin t u) (ht : Tree.insertAll t vs = some t')
    (hu : Tree.insertAll u vs = some u') : Twin t' u' := by
  induction vs generalizing t u with
  | nil =>
    cases ht
    cases hu
    exact h
  | cons w vs ih =>
    have hright := insertAll_valid hu h.right
    have hleft := insertAll_valid ht h.left
    unfold Tree.insertAll at ht hu ih
    rw [List.foldlM_cons] at ht hu
    obtain ⟨t₁, ht₁, ht⟩ := Option.bind_eq_some_iff.mp ht
    obtain ⟨u₁, hu₁, hu⟩ := Option.bind_eq_some_iff.mp hu
    have hvalid (s s' : TrieNode) (hs : trieInsert w s = some s') : s'.isValid = true := by
      cases w with
      | nil =>
        cases hs
        rfl
      | cons c w =>
        obtain ⟨i, -, hs⟩ := Option.bind_eq_some_iff.mp hs
        obtain ⟨v, -, rfl⟩ := Option.map_eq_some_iff.mp hs
        exact used_valid
    refine ih ⟨hvalid t t₁ ht₁, hvalid u u₁ hu₁, fun j => ?_⟩ ht hu
    cases w with
    | nil =>
      cases ht₁
      cases hu₁
      exact h.child j
    | cons c w =>
      obtain ⟨i, hi, ht₁⟩ := Option.bind_eq_some_iff.mp ht₁
      obtain ⟨i', hi', hu₁⟩ := Option.bind_eq_some_iff.mp hu₁
      cases hi.symm.trans hi'
      obtain ⟨v, hv, rfl⟩ := Option.map_eq_some_iff.mp ht₁
      obtain ⟨v', hv', rfl⟩ := Option.map_eq_some_iff.mp hu₁
      rw [used_child, used_child]
      by_cases hj : j = i
      · subst hj
        rw [update_self, update_self]
        exact (h.child j).trieInsert hv hv'
      · rw [update_of_ne hj, update_of_ne hj]
        exact h.child j

/-- The same search after the same insertions. -/
theorem Twin.search (h : Twin t u) (hp : p ≠ []) :
    (Tree.insertAll t vs).bind (trieSearch p) = (Tree.insertAll u vs).bind (trieSearch p) := by
  by_cases hvs : ∀ w ∈ vs, Plain w
  · obtain ⟨t', ht'⟩ := insertAll_plain t hvs
    obtain ⟨u', hu'⟩ := insertAll_plain u hvs
    have htwin := h.insertAll ht' hu'
    obtain ⟨c, p, rfl⟩ := List.exists_cons_of_ne_nil hp
    rw [ht', hu', Option.bind_some, Option.bind_some, trieSearch_root htwin.left,
      trieSearch_root htwin.right]
    congr 1
    funext i
    exact (htwin.child i).trieSearch
  · have hnone (s : TrieNode) : Tree.insertAll s vs = none := by
      by_contra hne
      obtain ⟨s', hs'⟩ := Option.ne_none_iff_exists'.mp hne
      exact hvs (plain_of_insertAll hs')
    rw [hnone, hnone]

/-! ## The round trip -/

theorem refield_of {f : ℕ} (hf : f < 2 ^ 15) (hlow : f % 256 < 128) : refield f = f := by
  have hl : (lowByte f).val = f % 256 := rfl
  have hh : (highByte f).val = f / 256 := Nat.mod_eq_of_lt (by omega)
  have hlow' : lowByte f < 128 := by
    rw [Fin.lt_def, hl]
    exact hlow
  have hhigh' : highByte f < 128 := by
    rw [Fin.lt_def, hh]
    change f / 256 < 128
    omega
  unfold refield field signed
  rw [if_pos hlow', if_pos hhigh', hl, hh]
  omega

/-- The inserted bytes have nodes of their own and are no end marks of the file, and the frequencies
below a prefix that is no inserted string have small low bytes. -/
structure Kept (ws : List (List Byte)) : Prop where
  bytes : ∀ w ∈ ws, ∀ c ∈ w, c ≠ 0 ∧ c < 128
  small : ∀ p i, p ≠ [] → p ∉ ws → min maxFreq (through ws (p ++ [i])) % 256 < 128

theorem Kept.named (h : Kept ws) (hrep : Represents t ws) : Named t := by
  intro p i hv
  rw [at_append] at hv
  have htails := ((hrep p).child i).mp hv
  obtain ⟨w, hw⟩ := List.exists_mem_of_ne_nil _ htails
  exact h.bytes _ (mem_suffixes.mp (mem_tailsOf.mp hw)) i (by simp)

/-- A node below the root is alike what is read back of it. -/
theorem Kept.peer (h : Kept ws) (hrep : Represents t ws) (hvalid : (t.at p).isValid = true →
    suffixes p ws ≠ []) (hp : p ≠ []) : Peer (t.at p) (reload junk (t.at p) p) := by
  have hfreq (i : Byte) (hend : (t.at p).isEnd = false) :
      refield ((t.at p).child i).frequence = ((t.at p).child i).frequence := by
    have hcount : ((t.at p).child i).frequence = min maxFreq (through ws (p ++ [i])) := by
      have := (hrep (p ++ [i])).frequence
      rwa [at_append, length_suffixes] at this
    have hnot : p ∉ ws := fun hmem => by
      have := (hrep p).isEnd.mpr (mem_suffixes.mpr (by rwa [List.append_nil]))
      rw [hend] at this
      cases this
    rw [hcount]
    refine refield_of ?_ (h.small p i hp hnot)
    unfold maxFreq
    omega
  have hcounts := hrep p
  revert hvalid hfreq hcounts
  generalize t.at p = s
  intro hvalid hfreq hcounts
  cases s with
  | invalid => exact ⟨rfl, rfl, fun _ => ⟨rfl, rfl, fun i => rfl⟩⟩
  | valid e f m b ch =>
    refine ⟨rfl, rfl, fun hend => ?_⟩
    obtain ⟨w, hw⟩ := List.exists_mem_of_ne_nil _ (hvalid rfl)
    obtain ⟨i, hb, -, hmax⟩ := hcounts.best.resolve_left fun hnone => by
      cases w with
      | nil =>
        rw [hcounts.isEnd.mpr hw] at hend
        cases hend
      | cons j w =>
        have hj := (hcounts.child j).mpr (List.ne_nil_of_mem (mem_tailsOf.mpr hw))
        rw [hnone.2 j] at hj
        cases hj
    have hb : b = some i := hb
    have hm : refield m = m := by
      have := hfreq i hend
      rwa [hmax] at this
    refine ⟨hm.symm, by rw [hb]; rfl, fun j => ?_⟩
    have hj := hfreq j hend
    change (ch j).frequence = (reload junk (ch j) (p ++ [j])).frequence
    change refield (ch j).frequence = (ch j).frequence at hj
    cases hch : ch j with
    | invalid => rfl
    | valid =>
      rw [hch] at hj
      exact hj.symm

theorem Kept.twin (h : Kept ws) (hrep : Represents t ws) (ht : t.isValid = true) :
    Twin t (reloadRoot junk t) := by
  refine ⟨ht, rfl, fun i p => ?_⟩
  have hat : (reload junk (t.child i) [i]).at p = reload junk (t.at (i :: p)) (i :: p) := reload_at
  change Peer (t.at (i :: p)) ((reload junk (t.child i) [i]).at p)
  rw [hat]
  refine h.peer hrep (fun hv => ?_) (by simp)
  have hsplit := List.dropLast_append_getLast (List.cons_ne_nil i p)
  rw [← hsplit, at_append] at hv
  have htails := ((hrep (i :: p).dropLast).child _).mp hv
  rw [← hsplit]
  intro hnil
  obtain ⟨w, hw⟩ := List.exists_mem_of_ne_nil _ htails
  have hmem : w ∈ suffixes ((i :: p).dropLast ++ [(i :: p).getLast (List.cons_ne_nil i p)]) ws := by
    have := mem_suffixes.mp (mem_tailsOf.mp hw)
    exact mem_suffixes.mpr (by rw [List.append_assoc]; exact this)
  rw [hnil] at hmem
  cases hmem

/-- Reading back what was written gives a trie with the same searches, now and after any further
insertions into both. -/
theorem trieFile_roundTrip (ws : List (List Byte)) (h : Kept ws) (junk : Path → Byte) :
    ∃ t bytes u, insertAll trieGetRoot ws = some t ∧ trieToFile junk t = some bytes ∧
      trieFromFile bytes = some u ∧ ∀ vs p, p ≠ [] →
        (insertAll t vs).bind (trieSearch p) = (insertAll u vs).bind (trieSearch p) := by
  obtain ⟨t, ht, hrep⟩ := insertAll_represents (fun w hw c hc => (h.bytes w hw c hc).2) .root
  have hvalid := insertAll_valid ht rfl
  obtain ⟨bytes, hbytes, hread⟩ :=
    trieFromFile_trieToFile junk hvalid (h.named hrep)
  exact ⟨t, bytes, _, ht, hbytes, hread, fun vs p hp => (h.twin hrep hvalid).search hp⟩

theorem kept_two : Kept [[108, 115], [108, 110]] where
  bytes := by decide +kernel
  small p i _ _ := by
    have hle : through [[108, 115], [108, 110]] (p ++ [i]) ≤ 2 := List.countP_le_length
    omega

/-- Two commands with one prefix. -/
theorem trieFile_two : ∃ t bytes u, insertAll trieGetRoot [[108, 115], [108, 110]] = some t ∧
    trieToFile (fun _ => 0) t = some bytes ∧ trieFromFile bytes = some u ∧ ∀ vs p, p ≠ [] →
      (insertAll t vs).bind (trieSearch p) = (insertAll u vs).bind (trieSearch p) :=
  trieFile_roundTrip _ kept_two _

/-- What two equal runs of insertions find, one on the trie itself and one on what was read back. -/
def searches (junk : Path → Byte) (ws vs : List (List Byte)) (p : List Byte) :
    Option (Option (List Byte)) × Option (Option (List Byte)) :=
  let t := insertAll trieGetRoot ws
  ((t.bind (insertAll · vs)).bind (trieSearch p),
    (((t.bind (trieToFile junk)).bind trieFromFile).bind (insertAll · vs)).bind (trieSearch p))

theorem searches_eq {bytes : List Byte} (ht : insertAll trieGetRoot ws = some t)
    (hbytes : trieToFile junk t = some bytes) (hu : trieFromFile bytes = some u) :
    searches junk ws vs p = ((insertAll t vs).bind (trieSearch p),
      (insertAll u vs).bind (trieSearch p)) := by
  simp only [searches, ht, hbytes, hu, Option.bind_some]

set_option maxRecDepth 4000 in
/-- A command was used 128 times, and then another one with the same first letter 129 times. The
frequency 128 was read back as 32640, and so the search still ends in the first command. -/
theorem trieFile_128 : ¬ ∃ t bytes u, insertAll trieGetRoot (List.replicate 128 [97, 98]) = some t ∧
    trieToFile (fun _ => 0) t = some bytes ∧ trieFromFile bytes = some u ∧ ∀ vs p, p ≠ [] →
      (insertAll t vs).bind (trieSearch p) = (insertAll u vs).bind (trieSearch p) := by
  rintro ⟨t, bytes, u, ht, hbytes, hu, h⟩
  have hpair : searches (fun _ => 0) (List.replicate 128 [97, 98]) (List.replicate 129 [97, 99]) [97] =
      (some (some [99]), some (some [98])) := by decide +kernel
  rw [searches_eq ht hbytes hu, h _ [97] (by simp), Prod.mk.injEq] at hpair
  cases hpair.1.symm.trans hpair.2

end SylixOS.Tree
