import SylixOS.Tree.TrieFile
import Mathlib.Data.List.Induction
import Mathlib.Data.List.Nodup

/-! # Reading back what was written

The file holds every node but the root, and the reader puts the nodes back in the same order, each
one below a node that is there already. What it gets is the trie with the frequencies that the file
gives for them.
-/

namespace SylixOS.Tree
open TrieNode

variable {t u v T : TrieNode} {junk : Path → Byte} {p q r : Path} {ps : List Path} {i c : Byte}
  {cs bytes : List Byte} {S : Set Path} {n k l : ℕ}

/-- A frequency that was written and read. -/
def refield (f : ℕ) : ℕ := field (lowByte f) (highByte f)

/-- What is read back of the nodes below a path. -/
def reload (junk : Path → Byte) : TrieNode → Path → TrieNode
  | invalid, _ => invalid
  | valid e f m b ch, p =>
    valid e (refield f) (refield m) (some (b.getD (junk p))) fun i => reload junk (ch i) (p ++ [i])

/-- What is read back of a trie: nothing is written of the root itself. -/
def reloadRoot (junk : Path → Byte) (t : TrieNode) : TrieNode :=
  valid false 0 0 none fun i => reload junk (t.child i) [i]

/-- A node without its children. -/
def fields : TrieNode → Option (Bool × ℕ × ℕ × Option Byte)
  | invalid => none
  | valid e f m b _ => some (e, f, m, b)

theorem fields_eq_none : fields t = none ↔ t.isValid = false := by
  cases t <;> simp [fields, TrieNode.isValid]

/-- Nodes with the same fields everywhere below are the same. -/
theorem eq_of_fields (h : ∀ p, fields (t.at p) = fields (u.at p)) : t = u := by
  induction t generalizing u with
  | invalid =>
    cases u with
    | invalid => rfl
    | valid => exact absurd (h []) (by simp [fields])
  | valid e f m b ch ih =>
    cases u with
    | invalid => exact absurd (h []) (by simp [fields])
    | valid e' f' m' b' ch' =>
      have hroot := h []
      simp only [at_nil, fields, Option.some.injEq, Prod.mk.injEq] at hroot
      obtain ⟨rfl, rfl, rfl, rfl⟩ := hroot
      congr 1
      funext i
      exact ih i fun p => h (i :: p)

theorem reload_at : (reload junk t p).at q = reload junk (t.at q) (p ++ q) := by
  induction q generalizing t p with
  | nil => rw [at_nil, at_nil, List.append_nil]
  | cons i q ih =>
    cases t with
    | invalid => simp [reload, TrieNode.child]
    | valid e f m b ch =>
      have h := ih (t := ch i) (p := p ++ [i])
      rw [List.append_assoc] at h
      exact h

theorem reloadRoot_at (hp : p ≠ []) : (reloadRoot junk t).at p = reload junk (t.at p) p := by
  obtain ⟨i, p, rfl⟩ := List.exists_cons_of_ne_nil hp
  exact reload_at

theorem reload_isValid : (reload junk t p).isValid = t.isValid := by
  cases t <;> rfl

theorem reloadRoot_isValid (ht : t.isValid = true) :
    ((reloadRoot junk t).at p).isValid = (t.at p).isValid := by
  by_cases hp : p = []
  · subst hp
    exact ht.symm
  · rw [reloadRoot_at hp, reload_isValid]

/-! ## One node is put in its place -/

theorem put_at (h : (t.at p).isValid = true) : (t.put (p ++ [i]) u).at (p ++ i :: q) = u.at q := by
  induction p generalizing t with
  | nil =>
    cases t with
    | invalid => cases h
    | valid e f m b ch =>
      change (Function.update ch i ((ch i).put [] u) i).at q = u.at q
      rw [Function.update_self]
      cases ch i <;> rfl
  | cons c p ih =>
    cases t with
    | invalid =>
      rw [invalid_at] at h
      cases h
    | valid e f m b ch =>
      change (Function.update ch c ((ch c).put (p ++ [i]) u) c).at (p ++ i :: q) = u.at q
      rw [Function.update_self]
      exact ih h

/-- The other nodes keep their fields. -/
theorem fields_put (h : ¬ q <+: r) : fields ((t.put q u).at r) = fields (t.at r) := by
  induction q generalizing t r with
  | nil => exact absurd List.nil_prefix h
  | cons c q ih =>
    cases t with
    | invalid => rfl
    | valid e f m b ch =>
      cases r with
      | nil => rfl
      | cons d r =>
        change fields ((Function.update ch c ((ch c).put q u) d).at r) = fields ((ch d).at r)
        by_cases hd : d = c
        · subst hd
          rw [Function.update_self]
          exact ih fun hq => h (List.cons_prefix_cons.mpr ⟨rfl, hq⟩)
        · rw [Function.update_of_ne hd]

/-- The nodes in the set have been read. -/
structure Loaded (T u : TrieNode) (S : Set Path) : Prop where
  closed : ∀ p i, p ++ [i] ∈ S → p ∈ S
  valid : ∀ p ∈ S, (T.at p).isValid = true
  mem : ∀ p ∈ S, fields (u.at p) = fields (T.at p)
  fresh : ∀ p, p ∉ S → fields (u.at p) = none

namespace Loaded

theorem of_append (h : Loaded T u S) (hp : p ++ q ∈ S) : p ∈ S := by
  induction q using List.reverseRecOn with
  | nil => rwa [List.append_nil] at hp
  | append_singleton q i ih =>
    rw [← List.append_assoc] at hp
    exact ih (h.closed _ i hp)

theorem isValid (h : Loaded T u S) (hp : p ∈ S) : (u.at p).isValid = true := by
  have hfields := h.mem p hp
  by_contra hv
  rw [fields_eq_none.mpr (by simpa using hv)] at hfields
  have := fields_eq_none.mp hfields.symm
  rw [h.valid p hp] at this
  cases this

/-- One more node is read. -/
theorem put (h : Loaded T u S) (hp : p ∈ S) (hnew : p ++ [i] ∉ S)
    (hvalid : (T.at (p ++ [i])).isValid = true) {e : Bool} {f m : ℕ} {b : Option Byte}
    (hT : fields (T.at (p ++ [i])) = some (e, f, m, b)) :
    Loaded T (u.put (p ++ [i]) (.valid e f m b fun _ => invalid)) (insert (p ++ [i]) S) := by
  have hother (r : Path) (hr : ¬ (p ++ [i]) <+: r) :
      fields ((u.put (p ++ [i]) (.valid e f m b fun _ => invalid)).at r) = fields (u.at r) :=
    fields_put hr
  have hself (q : Path) : (u.put (p ++ [i]) (.valid e f m b fun _ => invalid)).at (p ++ [i] ++ q) =
      (TrieNode.valid e f m b fun _ => invalid).at q := by
    rw [List.append_assoc]
    exact put_at (h.isValid hp)
  refine ⟨fun r j hr => ?_, fun r hr => ?_, fun r hr => ?_, fun r hr => ?_⟩
  · rcases Set.mem_insert_iff.mp hr with hr | hr
    · rw [(List.append_inj' hr rfl).1]
      exact Set.mem_insert_of_mem _ hp
    · exact Set.mem_insert_of_mem _ (h.closed r j hr)
  · rcases Set.mem_insert_iff.mp hr with rfl | hr
    · exact hvalid
    · exact h.valid r hr
  · rcases Set.mem_insert_iff.mp hr with rfl | hr
    · have := hself []
      rw [List.append_nil] at this
      rw [this, hT]
      rfl
    · rw [hother r ?_, h.mem r hr]
      rintro ⟨q, rfl⟩
      exact hnew (h.of_append hr)
  · rw [Set.mem_insert_iff, not_or] at hr
    by_cases hpre : (p ++ [i]) <+: r
    · obtain ⟨q, rfl⟩ := hpre
      rw [hself q]
      cases q with
      | nil => exact absurd (List.append_nil _) hr.1
      | cons j q => rw [at_cons, TrieNode.child, invalid_at, fields]
    · rw [hother r hpre, h.fresh r hr.2]

end Loaded

/-! ## Nodes, levels and the whole file -/

/-- The valid children stand at indices that are no end mark of the file. -/
def Named (t : TrieNode) : Prop := ∀ p i, (t.at (p ++ [i])).isValid = true → i ≠ 0 ∧ i < 128

theorem mem_children : i ∈ children t p ↔ (t.at (p ++ [i])).isValid = true := by
  simp [children]

/-- The fields that the file gives for a node. -/
theorem fields_reloadRoot (hv : (t.at (p ++ [i])).isValid = true) :
    fields ((reloadRoot junk t).at (p ++ [i])) = some ((t.at (p ++ [i])).isEnd,
      refield (t.at (p ++ [i])).frequence, refield (t.at (p ++ [i])).maxFrequence,
      some ((t.at (p ++ [i])).mostFrequentlyUsedChar.getD (junk (p ++ [i])))) := by
  rw [reloadRoot_at (by simp)]
  revert hv
  generalize t.at (p ++ [i]) = u
  intro hv
  cases u with
  | invalid => cases hv
  | valid => rfl

theorem endMark (e : Bool) : (decide ((if e then (1 : Byte) else 0).val % 2 = 1)) = e := by
  cases e <;> rfl

theorem signed_ne {c : Byte} (h : c < 128) : signed c ≠ -1 := by
  rw [signed, if_pos h]
  omega

theorem readNode_spec (next : List Path) (rest : List Byte) (ht : t.isValid = true) (hnamed : Named t) (hcs : cs.Nodup)
    (hchild : ∀ i ∈ cs, (t.at (p ++ [i])).isValid = true ∧ p ++ [i] ∉ S) (hp : p ∈ S)
    (h : Loaded (reloadRoot junk t) u S) :
    ∃ u', readNode p u next ((cs.flatMap fun i => i :: nodeInfo junk t (p ++ [i])) ++ 0 :: rest) =
        .more u' (next ++ cs.map fun i => p ++ [i]) rest ∧
      Loaded (reloadRoot junk t) u' (S ∪ {q | ∃ i ∈ cs, q = p ++ [i]}) := by
  induction cs generalizing u next S with
  | nil =>
    refine ⟨u, ?_, ?_⟩
    · rw [List.flatMap_nil, List.nil_append, readNode, if_neg (signed_ne (by decide)), if_pos rfl,
        List.map_nil, List.append_nil]
    · simpa using h
  | cons i cs ih =>
    obtain ⟨hv, hnew⟩ := hchild i List.mem_cons_self
    obtain ⟨hi, hlt⟩ := hnamed p i hv
    have hput := h.put hp hnew ((reloadRoot_isValid ht).trans hv) (fields_reloadRoot hv)
    have hnodup := List.nodup_cons.mp hcs
    have hne (j : Byte) (hj : j ∈ cs) : p ++ [j] ≠ p ++ [i] := fun heq => by
      have := List.append_cancel_left heq
      simp only [List.cons.injEq, and_true] at this
      exact hnodup.1 (this ▸ hj)
    obtain ⟨u', hread, hloaded⟩ := ih (next ++ [p ++ [i]]) hnodup.2 (fun j hj =>
        ⟨(hchild j (List.mem_cons_of_mem i hj)).1, fun hmem =>
          (Set.mem_insert_iff.mp hmem).elim (hne j hj) (hchild j (List.mem_cons_of_mem i hj)).2⟩)
      (Set.mem_insert_of_mem _ hp) hput
    refine ⟨u', ?_, ?_⟩
    · rw [List.flatMap_cons, List.append_assoc, List.cons_append, nodeInfo]
      simp only [List.cons_append, List.nil_append]
      rw [readNode, if_neg (signed_ne hlt), if_neg hi, slot_of_lt hlt]
      simp only [endMark]
      rw [List.append_assoc] at hread
      rw [List.map_cons]
      exact hread
    · have hset : S ∪ {q | ∃ j ∈ i :: cs, q = p ++ [j]} =
          insert (p ++ [i]) S ∪ {q | ∃ j ∈ cs, q = p ++ [j]} := by
        ext q
        simp only [Set.mem_union, Set.mem_ofPred_eq, List.mem_cons, exists_eq_or_imp, Set.mem_insert_iff]
        tauto
      rw [hset]
      exact hloaded

theorem nodup_children : (children t p).Nodup := (List.nodup_finRange 256).filter _

theorem mem_nextLevel : q ∈ nextLevel t ps ↔ ∃ p ∈ ps, ∃ i, (t.at (p ++ [i])).isValid = true ∧
    p ++ [i] = q := by
  simp only [nextLevel, List.mem_flatMap, List.mem_map, mem_children]

theorem readLevel_spec (next : List Path) (rest : List Byte) (ht : t.isValid = true) (hnamed : Named t) (hps : ps.Nodup)
    (hmem : ∀ p ∈ ps, p ∈ S) (hnew : ∀ p ∈ ps, ∀ i, p ++ [i] ∉ S)
    (h : Loaded (reloadRoot junk t) u S) :
    ∃ u', readLevel ps u next (ps.flatMap (writeNode junk t) ++ rest) =
        .more u' (next ++ nextLevel t ps) rest ∧
      Loaded (reloadRoot junk t) u' (S ∪ {q | q ∈ nextLevel t ps}) := by
  induction ps generalizing u next S with
  | nil => exact ⟨u, by simp [readLevel, nextLevel], by simpa [nextLevel] using h⟩
  | cons p ps ih =>
    have hnodup := List.nodup_cons.mp hps
    have hp := hmem p List.mem_cons_self
    obtain ⟨u₁, hread, hloaded⟩ := readNode_spec next
      (ps.flatMap (writeNode junk t) ++ rest) ht hnamed nodup_children
      (fun i hi => ⟨mem_children.mp hi, hnew p List.mem_cons_self i⟩) hp h
    obtain ⟨u', hread', hloaded'⟩ := ih (next ++ (children t p).map fun i => p ++ [i]) hnodup.2
      (fun q hq => .inl (hmem q (List.mem_cons_of_mem p hq))) (fun q hq i hqi => by
        rcases hqi with hqi | ⟨j, -, heq⟩
        · exact hnew q (List.mem_cons_of_mem p hq) i hqi
        · exact hnodup.1 ((List.append_inj' heq rfl).1 ▸ hq)) hloaded
    refine ⟨u', ?_, ?_⟩
    · rw [List.flatMap_cons, writeNode, List.append_assoc, List.append_assoc, readLevel]
      rw [show ([0] : List Byte) ++ (ps.flatMap (writeNode junk t) ++ rest) =
        0 :: (ps.flatMap (writeNode junk t) ++ rest) from rfl, hread]
      simp only
      rw [hread', List.append_assoc]
      rfl
    · have hset : S ∪ {q | q ∈ nextLevel t (p :: ps)} =
          S ∪ {q | ∃ i ∈ children t p, q = p ++ [i]} ∪ {q | q ∈ nextLevel t ps} := by
        ext q
        simp only [Set.mem_union, Set.mem_ofPred_eq, mem_nextLevel, List.mem_cons, exists_eq_or_imp,
          mem_children, or_assoc, eq_comm (a := q)]
      rw [hset]
      exact hloaded'

/-- Valid nodes stand below valid nodes. -/
theorem isValid_of_append (h : (t.at (p ++ q)).isValid = true) : (t.at p).isValid = true := by
  cases hv : t.at p with
  | invalid =>
    rw [at_append, hv, invalid_at] at h
    cases h
  | valid => rfl

/-- The list holds the nodes of one level. -/
structure Level (t : TrieNode) (l : ℕ) (ps : List Path) : Prop where
  nodup : ps.Nodup
  mem : ∀ p, p ∈ ps ↔ (t.at p).isValid = true ∧ p.length = l

theorem Level.below (h : Level t l ps) : Level t (l + 1) (nextLevel t ps) where
  nodup := by
    refine List.nodup_flatMap.mpr ⟨fun p hp => ?_, h.nodup.imp fun hne => ?_⟩
    · exact nodup_children.map fun i j heq => by simpa using heq
    · simp only [Function.onFun, List.disjoint_left, List.mem_map]
      rintro q ⟨i, -, rfl⟩ ⟨j, -, heq⟩
      exact hne (List.append_inj' heq rfl).1.symm
  mem q := by
    rw [mem_nextLevel]
    constructor
    · rintro ⟨p, hp, i, hv, rfl⟩
      exact ⟨hv, by rw [List.length_append, ((h.mem p).mp hp).2]; rfl⟩
    · rintro ⟨hv, hlen⟩
      have hne : q ≠ [] := by
        rintro rfl
        simp at hlen
      have heq := List.dropLast_append_getLast hne
      refine ⟨q.dropLast, (h.mem _).mpr ⟨?_, by simp [hlen]⟩, q.getLast hne, by rwa [heq], heq⟩
      rw [← heq] at hv
      exact isValid_of_append hv

theorem readLevels_spec (ht : t.isValid = true) (hnamed : Named t)
    (hw : writeLevels junk t k ps = some bytes) (hps : Level t l ps) (hn : bytes.length < n)
    (h : Loaded (reloadRoot junk t) u {p | (t.at p).isValid = true ∧ p.length ≤ l}) :
    readLevels n ps u bytes = some (false, reloadRoot junk t) := by
  induction n generalizing k ps bytes l u with
  | zero => omega
  | succ n ih =>
    cases ps with
    | nil =>
      rw [readLevels]
      -- A node below this level would have a node of this level above it.
      have hshort (p : Path) (hv : (t.at p).isValid = true) : p.length ≤ l := by
        by_contra hlong
        have hmem : p.take l ∈ ([] : List Path) := by
          refine (hps.mem _).mpr ⟨?_, by rw [List.length_take]; omega⟩
          rw [← List.take_append_drop l p] at hv
          exact isValid_of_append hv
        cases hmem
      refine congrArg (fun t => some (false, t)) (eq_of_fields fun p => ?_)
      by_cases hv : (t.at p).isValid = true
      · exact h.mem p ⟨hv, hshort p hv⟩
      · rw [h.fresh p fun hp => hv hp.1, eq_comm, fields_eq_none, reloadRoot_isValid ht]
        simpa using hv
    | cons p ps =>
      cases k with
      | zero => cases hw
      | succ k =>
        obtain ⟨rest, hrest, rfl⟩ := Option.map_eq_some_iff.mp hw
        obtain ⟨u', hread, hloaded⟩ := readLevel_spec [] rest ht hnamed hps.nodup
          (fun q hq => by
            have := (hps.mem q).mp hq
            exact ⟨this.1, this.2.le⟩)
          (fun q hq i hqi => by
            have hlen := ((hps.mem q).mp hq).2
            have hle := hqi.2
            rw [List.length_append, hlen] at hle
            exact absurd hle (Nat.not_succ_le_self l)) h
        rw [readLevels, hread]
        refine ih hrest hps.below ?_ ?_
        · have hpos : 0 < (writeNode junk t p).length := by simp [writeNode]
          simp only [List.length_append, List.flatMap_cons] at hn
          omega
        · have hset : {q | (t.at q).isValid = true ∧ q.length ≤ l + 1} =
              {q | (t.at q).isValid = true ∧ q.length ≤ l} ∪ {q | q ∈ nextLevel t (p :: ps)} := by
            ext q
            simp only [Set.mem_union, Set.mem_ofPred_eq, hps.below.mem]
            rw [← and_or_left, Nat.le_succ_iff]
          rw [hset]
          exact hloaded

/-- The writer comes to an end. -/
theorem writeLevels_isSome (junk : Path → Byte) (h : ∀ p ∈ ps, depth (t.at p) ≤ k) :
    (writeLevels junk t (k + 1) ps).isSome := by
  have hdepth (p : Path) (i : Byte) (hv : (t.at (p ++ [i])).isValid = true) :
      depth (t.at (p ++ [i])) < depth (t.at p) := by
    rw [at_append] at hv ⊢
    generalize t.at p = u at hv ⊢
    cases u with
    | invalid => cases hv
    | valid e f m b ch =>
      have hle (xs : List ℕ) (x : ℕ) (hx : x ∈ xs) : x ≤ xs.foldr max 0 := by
        induction xs with
        | nil => cases hx
        | cons y xs ih =>
          rcases List.mem_cons.mp hx with rfl | hx
          · exact Nat.le_max_left ..
          · exact (ih hx).trans (Nat.le_max_right ..)
      exact Nat.lt_succ_of_le (hle _ _ (List.mem_map.mpr ⟨i, List.mem_finRange i, rfl⟩))
  induction k generalizing ps with
  | zero =>
    have hnone : nextLevel t ps = [] := by
      refine List.eq_nil_iff_forall_not_mem.mpr fun q hq => ?_
      obtain ⟨p, hp, i, hv, -⟩ := mem_nextLevel.mp hq
      have := hdepth p i hv
      have := h p hp
      omega
    cases ps with
    | nil => rfl
    | cons p ps =>
      rw [writeLevels, hnone]
      rfl
  | succ k ih =>
    cases ps with
    | nil => rfl
    | cons p ps =>
      rw [writeLevels, Option.isSome_map]
      refine ih fun q hq => ?_
      obtain ⟨p', hp', i, hv, rfl⟩ := mem_nextLevel.mp hq
      have := hdepth p' i hv
      have := h p' hp'
      omega

/-- What is written is read back. -/
theorem trieFromFile_trieToFile (junk : Path → Byte) (ht : t.isValid = true) (hnamed : Named t) :
    ∃ bytes, trieToFile junk t = some bytes ∧ trieFromFile bytes = some (reloadRoot junk t) := by
  obtain ⟨bytes, hbytes⟩ := Option.isSome_iff_exists.mp
    (writeLevels_isSome junk (by simp : ∀ p ∈ [[]], depth (t.at p) ≤ depth t))
  refine ⟨bytes, hbytes, congrArg (Option.map Prod.snd)
    (readLevels_spec ht hnamed hbytes (?_ : Level t 0 [[]]) (Nat.lt_succ_self _) ?_)⟩
  · refine ⟨List.nodup_singleton _, fun p => ?_⟩
    rw [List.mem_singleton, List.length_eq_zero_iff]
    constructor
    · rintro rfl
      exact ⟨ht, rfl⟩
    · exact And.right
  · refine ⟨fun p i hp => ?_, fun p hp => ?_, fun p hp => ?_, fun p hp => ?_⟩
    · exact absurd hp.2 (by simp)
    · exact (reloadRoot_isValid ht).trans hp.1
    · rw [List.length_eq_zero_iff.mp (Nat.le_zero.mp hp.2)]
      rfl
    · have hne : p ≠ [] := fun heq => hp (by rw [heq]; exact ⟨ht, Nat.le_refl _⟩)
      obtain ⟨i, p, rfl⟩ := List.exists_cons_of_ne_nil hne
      rw [at_cons, trieGetRoot, TrieNode.child, invalid_at, fields]

end SylixOS.Tree
