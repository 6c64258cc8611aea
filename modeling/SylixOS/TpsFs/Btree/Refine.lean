import SylixOS.TpsFs.Btree.Mapping

/-! # The tree as a map

Whatever splits, borrows and merges there are, a tree is a finite map from keys to ranges. -/

namespace SylixOS.TpsFs
open Lib Function

section List
variable {α : Type*} {kv x : ℕ × α} {A B : List (ℕ × α)} {m : ℕ → Option α}

/-- The list has the entries of the map. -/
def Lists (L : List (ℕ × α)) (m : ℕ → Option α) : Prop := ∀ e, e ∈ L ↔ m e.1 = some e.2

theorem Lists.add (h : Lists (A ++ B) m) (hkey : ∀ e ∈ A ++ B, e.1 ≠ kv.1) :
    Lists (A ++ kv :: B) (update m kv.1 (some kv.2)) := by
  intro e
  rw [List.mem_append, List.mem_cons, or_left_comm, ← List.mem_append]
  by_cases he : e.1 = kv.1
  · rw [he, update_self, Option.some.injEq, or_iff_left fun hmem => hkey e hmem he]
    exact ⟨fun heq => heq ▸ rfl, fun heq => Prod.ext he heq.symm⟩
  · rw [update_of_ne he, ← h e, or_iff_right fun heq => he (congrArg Prod.fst heq)]

theorem Lists.drop (h : Lists (A ++ x :: B) m) (hs : Sorted (A ++ x :: B)) :
    Lists (A ++ B) (update m x.1 none) := by
  intro e
  have hmem := h e
  rw [sorted_append, sorted_cons] at hs
  rw [List.mem_append, List.mem_cons, or_left_comm, ← List.mem_append] at hmem
  by_cases he : e.1 = x.1
  · rw [he, update_self]
    refine iff_of_false (fun hin => ?_) nofun
    rcases List.mem_append.mp hin with hin | hin
    · exact (hs.2.2 e hin x (.head _)).ne he
    · exact (hs.2.1.1 e hin).ne' he
  · rw [update_of_ne he, ← hmem, or_iff_right fun heq => he (congrArg Prod.fst heq)]

end List

/-- A tree, with the map that the same operations make of the empty one. -/
structure BtreeMap where
  tree : Btree
  map : ℕ → Option KvValue

/-- An operation; an insertion has the blocks that new nodes may get. -/
inductive BtreeOp where
  | insert (kv : ℕ × KvValue) (blks : List ℕ)
  | remove (blkKey : ℕ)
  | set (blkKey : ℕ) (kv : ℕ × KvValue)

namespace BtreeMap
variable (psb : SuperBlock) (s : BtreeMap)

/-- One operation that succeeds. -/
def next : BtreeOp → Option BtreeMap
  | .insert kv blks => (btreeInsert psb s.tree kv blks).toOption.map fun (t, _) =>
      ⟨t, update s.map kv.1 (some kv.2)⟩
  | .remove blkKey => (btreeRemove psb s.tree blkKey).toOption.map fun (t, _) =>
      ⟨t, update s.map blkKey none⟩
  | .set blkKey kv => (btreeSet s.tree blkKey kv).toOption.map fun t =>
      ⟨t, update (update s.map blkKey none) kv.1 (some kv.2)⟩

/-- What is removed or changed is there, and what is changed keeps its place. -/
def InPlace : BtreeOp → Prop
  | .insert _ _ => True
  | .remove blkKey => s.map blkKey ≠ none
  | .set blkKey kv => s.map blkKey ≠ none ∧
      ∀ j, s.map j ≠ none → (j < blkKey → j < kv.1) ∧ (blkKey < j → kv.1 < j)

/-- An empty tree. -/
def Init : Prop := ∃ inum, s = ⟨tpsFsBtreeInit psb inum, fun _ => none⟩

/-- The tree is in order and has the entries of the map. -/
def Ok : Prop := s.tree.Ok psb ∧ Lists s.tree.items s.map

variable {psb s} {s' : BtreeMap} {a : BtreeOp} {k : ℕ} {kv : ℕ × KvValue} {t : Btree} {blks blks' : List ℕ}

theorem Ok.split (h : s.Ok psb) (hk : s.map k ≠ none) :
    ∃ v A B, s.tree.items = A ++ (k, v) :: B := by
  obtain ⟨v, hv⟩ := Option.ne_none_iff_exists'.mp hk
  obtain ⟨A, B, heq⟩ := List.append_of_mem ((h.2 (k, v)).mpr hv)
  exact ⟨v, A, B, heq⟩

theorem Ok.insert (h : s.Ok psb) (hins : btreeInsert psb s.tree kv blks = .ok (t, blks')) :
    Ok psb ⟨t, update s.map kv.1 (some kv.2)⟩ := by
  obtain ⟨ht, pre, post, heq, heq', hpre, hpost⟩ := btreeInsert_spec h.1 hins
  refine ⟨ht, (congrArg (Lists · _) heq').mpr ((heq ▸ h.2).add fun e he => ?_)⟩
  rcases List.mem_append.mp he with he | he
  · exact (hpre e he).ne
  · exact (hpost e he).ne'

/-- A changed entry stays between its neighbours. -/
theorem Ok.set (h : s.Ok psb) (hok : s.InPlace (.set k kv)) :
    ∃ t, btreeSet s.tree k kv = .ok t ∧
      Ok psb ⟨t, update (update s.map k none) kv.1 (some kv.2)⟩ := by
  obtain ⟨v, A, B, heq⟩ := h.split hok.1
  have hsort : Sorted (A ++ (k, v) :: B) := heq ▸ h.1.sorted
  have hlists : Lists (A ++ (k, v) :: B) s.map := heq ▸ h.2
  have hkeep (e : ℕ × KvValue) (he : e ∈ A ++ B) :
      (e.1 < k → e.1 < kv.1) ∧ (k < e.1 → kv.1 < e.1) := by
    have hin := (hlists e).mp (((List.sublist_cons_self _ B).append_left A).mem he)
    exact hok.2 e.1 (by rw [hin]; nofun)
  have hdrop := hlists.drop hsort
  rw [sorted_append, sorted_cons] at hsort
  have hA (e : ℕ × KvValue) (he : e ∈ A) : e.1 < kv.1 :=
    (hkeep e (List.mem_append_left B he)).1 (hsort.2.2 e he _ (.head _))
  have hB (e : ℕ × KvValue) (he : e ∈ B) : kv.1 < e.1 :=
    (hkeep e (List.mem_append_right A he)).2 (hsort.2.1.1 e he)
  have hnew : Sorted (A ++ kv :: B) := by
    refine sorted_append.mpr ⟨hsort.1, sorted_cons.mpr ⟨hB, hsort.2.1.2⟩, fun x hx y hy => ?_⟩
    rcases List.mem_cons.mp hy with rfl | hy
    · exact hA x hx
    · exact (hA x hx).trans (hB y hy)
  obtain ⟨t, hset, ht, hitems⟩ := btreeSet_spec kv h.1 heq hnew
  refine ⟨t, hset, ht, (congrArg (Lists · _) hitems).mpr (hdrop.add fun e he => ?_)⟩
  rcases List.mem_append.mp he with he | he
  · exact (hA e he).ne
  · exact (hB e he).ne'

theorem Ok.next (h : s.Ok psb) (hok : s.InPlace a) (hs : s.next psb a = some s') : s'.Ok psb := by
  cases a with
  | insert kv blks =>
    obtain ⟨⟨t, blks'⟩, ht, rfl⟩ := Option.map_eq_some_iff.mp hs
    cases hins : btreeInsert psb s.tree kv blks with
    | error e => cases hins ▸ ht
    | ok r =>
      cases hins ▸ ht
      exact h.insert hins
  | remove blkKey =>
    obtain ⟨v, A, B, heq⟩ := h.split hok
    obtain ⟨t, freed, hrm, ht, hitems⟩ := btreeRemove_spec h.1 heq
    simp only [BtreeMap.next, hrm] at hs
    cases hs
    exact ⟨ht, hitems ▸ (heq ▸ h.2).drop (heq ▸ h.1.sorted)⟩
  | set blkKey kv =>
    obtain ⟨t, hset, ht⟩ := h.set hok
    simp only [BtreeMap.next, hset] at hs
    cases hs
    exact ht

/-- In every run of insertions, removals and changes the tree is in order and its leaves have the
entries of the map, each once. A lookup finds the last entry whose key is not above the one looked for,
or the first one; what is there can be removed, and with a block for every level exactly what is not
there can be inserted. -/
theorem btree_refines (h : Reach (next psb) InPlace (Init psb) s) :
    s.tree.Ok psb ∧ Lists s.tree.items s.map ∧
      (s.tree.items ≠ [] → ∀ k, ∃ x, btreeGet s.tree k false = .ok x ∧ Floor k s.tree.items x) ∧
      (∀ k, s.map k ≠ none → ∃ r, btreeRemove psb s.tree k = .ok r) ∧
      ∀ kv blks, s.tree.level + 1 < blks.length →
        ((∃ r, btreeInsert psb s.tree kv blks = .ok r) ↔ s.map kv.1 = none) := by
  have hok : s.Ok psb := by
    refine h.invariant ?_ fun s a s' hI ha hs => hI.next ha hs
    rintro _ ⟨inum, rfl⟩
    exact ⟨tpsFsBtreeInit_ok psb inum, fun e => iff_of_false List.not_mem_nil nofun⟩
  refine ⟨hok.1, hok.2, fun hne k => btreeGet_spec hok.1 hne, fun k hk => ?_, fun kv blks hblks => ?_⟩
  · obtain ⟨v, A, B, heq⟩ := hok.split hk
    obtain ⟨t, freed, hrm, -⟩ := btreeRemove_spec hok.1 heq
    exact ⟨_, hrm⟩
  constructor
  · rintro ⟨⟨t, blks'⟩, hins⟩
    obtain ⟨-, pre, post, heq, -, hpre, hpost⟩ := btreeInsert_spec hok.1 hins
    by_contra hk
    obtain ⟨v, A, B, heq'⟩ := hok.split hk
    have hmem : (kv.1, v) ∈ pre ++ post := heq ▸ heq' ▸ List.mem_append_right A (.head B)
    rcases List.mem_append.mp hmem with hmem | hmem
    · exact (hpre _ hmem).false
    · exact (hpost _ hmem).false
  · intro hk
    have hnew (x : ℕ × KvValue) (hx : x ∈ s.tree.items) : x.1 ≠ kv.1 := by
      intro hkey
      have := (hok.2 x).mp hx
      rw [hkey, hk] at this
      cases this
    obtain ⟨t, blks', hins⟩ := btreeInsert_isOk kv hok.1 hnew hblks
    exact ⟨_, hins⟩

theorem btree_refines_one : ∃ s, Reach (next BlkMap.smallPsb) InPlace (Init BlkMap.smallPsb) s ∧
    s.map 8 = some ⟨50, 2⟩ ∧ Lists s.tree.items s.map := by
  have h₀ : Reach (next BlkMap.smallPsb) InPlace (Init BlkMap.smallPsb) _ := .start ⟨20, rfl⟩
  have h₁ := h₀.extend (.insert (0, ⟨100, 4⟩) []) trivial rfl
  have h₂ := h₁.extend (.insert (8, ⟨50, 2⟩) []) trivial rfl
  have h₃ := h₂.extend (.remove 0) nofun rfl
  exact ⟨_, h₃, rfl, (btree_refines h₃).2.1⟩

end BtreeMap

end SylixOS.TpsFs
