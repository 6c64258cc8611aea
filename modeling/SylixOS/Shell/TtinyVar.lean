import SylixOS.Lib.Reach
import SylixOS.Shell.TtinyString
import Mathlib.Logic.Function.Basic

/-! # The variables of the shell

The nodes of the variables are in one list and in hash chains, each from the newest to the oldest. A
definition looks a name up and overwrites its value under the lock; only when there is no such variable
does it allocate a node, and takes the lock again to insert it. -/

namespace SylixOS.Shell
open Lib

/-- What the functions on variables return. -/
inductive VarError where
  | none
  | evar
  | canntOverwrite
  | lowMemory
  deriving DecidableEq

/-- `LW_CFG_SHELL_VAR_HASH_SIZE`. -/
def varHashSize : ℕ := 17

/-- The loop of `__hashHorner`, which takes every second character. -/
def hashVal (iHashVal : UInt32) : Text → UInt32
  | [] => iHashVal
  | [c] => (iHashVal <<< 5) + c.val
  | c :: _ :: t => hashVal ((iHashVal <<< 5) + c.val) t

def hashHorner (pcKeyword : Text) (iTableSize : ℕ) : ℕ := (hashVal 0 pcKeyword).toNat % iTableSize

/-- `__TSHELL_VAR`. -/
structure TshellVar where
  pcVarName : Text
  pcVarValue : Text

/-- `_G_plineTSVarHeader`, `_G_plineTSVarHeaderHashTbl` and the nodes in them, which are numbered as they
are inserted. -/
structure VarTable where
  header : List ℕ
  hashTbl : ℕ → List ℕ
  node : ℕ → TshellVar
  inserted : ℕ

namespace VarTable

def empty : VarTable := ⟨[], fun _ => [], fun _ => ⟨[], []⟩, 0⟩

/-- The search through a hash chain. -/
def find (v : VarTable) (pcVarName : Text) : Option ℕ :=
  (v.hashTbl (hashHorner pcVarName varHashSize)).find? fun i => (v.node i).pcVarName = pcVarName

/-- `__tshellVarSet`, with the node whose value it has set; `alloc` tells whether there is memory. -/
def varSet (v : VarTable) (pcVarName pcVarValue : Text) (iIsOverwrite alloc : Bool) :
    VarError × Option ℕ × VarTable :=
  match v.find pcVarName with
  | none => (.evar, none, v)
  | some i =>
    if iIsOverwrite = false ∧ 0 < (v.node i).pcVarValue.length then (.canntOverwrite, none, v)
    else if alloc = false then (.lowMemory, none, v)
    else (.none, some i,
      { v with node := Function.update v.node i { v.node i with pcVarValue := pcVarValue } })

/-- The section of `__tshellVarAdd` under the lock. -/
def insert (v : VarTable) (pcVarName pcVarValue : Text) : VarTable :=
  let iHashVal := hashHorner pcVarName varHashSize
  { header := v.inserted :: v.header
    hashTbl := Function.update v.hashTbl iHashVal (v.inserted :: v.hashTbl iHashVal)
    node := Function.update v.node v.inserted ⟨pcVarName, pcVarValue⟩
    inserted := v.inserted + 1 }

/-- `__tshellVarAdd`, with the node that it has inserted. -/
def varAdd (v : VarTable) (pcVarName pcVarValue : Text) (alloc : Bool) :
    VarError × Option ℕ × VarTable :=
  if alloc = false then (.lowMemory, none, v)
  else (.none, some v.inserted, v.insert pcVarName pcVarValue)

/-- `__tshellVarDeleteByName`. -/
def varDeleteByName (v : VarTable) (pcVarName : Text) : VarError × VarTable :=
  match v.find pcVarName with
  | none => (.evar, v)
  | some i =>
    let iHashVal := hashHorner pcVarName varHashSize
    (.none,
      { v with
        header := v.header.erase i
        hashTbl := Function.update v.hashTbl iHashVal ((v.hashTbl iHashVal).erase i) })

/-- A name has at most one node. -/
def Unique (v : VarTable) : Prop :=
  ∀ pcVarName, v.header.countP (fun i => (v.node i).pcVarName = pcVarName) ≤ 1

/-- No node has the name. -/
def Fresh (v : VarTable) (pcVarName : Text) : Prop :=
  ∀ i ∈ v.header, (v.node i).pcVarName ≠ pcVarName

/-! ## Both lists agree -/

/-- The chains are those of the list, which goes from the newest node to the oldest. -/
structure Ok (v : VarTable) : Prop where
  chain : ∀ k, v.hashTbl k =
    v.header.filter fun i => hashHorner (v.node i).pcVarName varHashSize = k
  sorted : v.header.Pairwise fun i j => j < i
  bound : ∀ i ∈ v.header, i < v.inserted

variable {v v' : VarTable} {pcVarName pcVarValue : Text} {i j : ℕ} {overwrite alloc : Bool}
  {e : VarError} {o : Option ℕ}

theorem empty_ok : empty.Ok := ⟨fun _ => rfl, .nil, by simp [empty]⟩

theorem Ok.nodup (h : v.Ok) : v.header.Nodup :=
  h.sorted.imp fun hlt => (Nat.ne_of_lt hlt).symm

/-- A name is looked up among all the nodes. -/
theorem Ok.find_eq (h : v.Ok) :
    v.find pcVarName = v.header.find? fun i => (v.node i).pcVarName = pcVarName := by
  rw [find, h.chain, List.find?_filter]
  congr 1
  funext i
  by_cases hi : (v.node i).pcVarName = pcVarName
  · simp [hi]
  · simp [hi]

theorem Ok.find_some (h : v.Ok) (hf : v.find pcVarName = some i) :
    i ∈ v.header ∧ (v.node i).pcVarName = pcVarName := by
  rw [h.find_eq] at hf
  exact ⟨List.mem_of_find?_eq_some hf, by simpa using List.find?_some hf⟩

/-- What is found is the newest node of the name. -/
theorem Ok.find_newest (h : v.Ok) (hf : v.find pcVarName = some j) (hi : i ∈ v.header)
    (hn : (v.node i).pcVarName = pcVarName) : i ≤ j := by
  rw [h.find_eq, List.find?_eq_some_iff_append] at hf
  obtain ⟨-, l, r, heq, hl⟩ := hf
  have hs := h.sorted
  rw [heq, List.pairwise_append] at hs
  rw [heq, List.mem_append, List.mem_cons] at hi
  rcases hi with hi | rfl | hi
  · simpa [hn] using hl i hi
  · exact le_rfl
  · exact (List.rel_of_pairwise_cons hs.2.1 hi).le

/-! ## What the sections do -/

theorem varSet_cases (h : v.varSet pcVarName pcVarValue overwrite alloc = (e, o, v')) :
    (e = .evar ∧ o = none ∧ v' = v ∧ v.find pcVarName = none) ∨
    (e ≠ .evar ∧ e ≠ .none ∧ o = none ∧ v' = v) ∨
    ∃ i, e = .none ∧ o = some i ∧ v.find pcVarName = some i ∧
      v' = { v with node := Function.update v.node i { v.node i with pcVarValue := pcVarValue } } := by
  unfold varSet at h
  cases hf : v.find pcVarName with
  | none =>
    simp only [hf, Prod.mk.injEq] at h
    exact .inl ⟨h.1.symm, h.2.1.symm, h.2.2.symm, rfl⟩
  | some i =>
    simp only [hf] at h
    split_ifs at h with ho ha
    · simp only [Prod.mk.injEq] at h
      obtain ⟨rfl, rfl, rfl⟩ := h
      exact .inr (.inl ⟨by decide, by decide, rfl, rfl⟩)
    · simp only [Prod.mk.injEq] at h
      obtain ⟨rfl, rfl, rfl⟩ := h
      exact .inr (.inl ⟨by decide, by decide, rfl, rfl⟩)
    · simp only [Prod.mk.injEq] at h
      obtain ⟨rfl, rfl, rfl⟩ := h
      exact .inr (.inr ⟨i, rfl, rfl, rfl, rfl⟩)

/-- Setting a value leaves every name. -/
theorem update_name (k : ℕ) :
    (Function.update v.node i { v.node i with pcVarValue := pcVarValue } k).pcVarName =
      (v.node k).pcVarName := by
  by_cases hk : k = i
  · subst hk
    simp
  · simp [hk]

theorem varSet_same (h : v.varSet pcVarName pcVarValue overwrite alloc = (e, o, v')) :
    v'.header = v.header ∧ v'.hashTbl = v.hashTbl ∧ v'.inserted = v.inserted ∧
      ∀ k, (v'.node k).pcVarName = (v.node k).pcVarName := by
  rcases varSet_cases h with ⟨-, -, rfl, -⟩ | ⟨-, -, -, rfl⟩ | ⟨i, -, -, -, rfl⟩
  · exact ⟨rfl, rfl, rfl, fun _ => rfl⟩
  · exact ⟨rfl, rfl, rfl, fun _ => rfl⟩
  · exact ⟨rfl, rfl, rfl, update_name⟩

theorem Ok.varSet (h : v.Ok) (hs : v.varSet pcVarName pcVarValue overwrite alloc = (e, o, v')) :
    v'.Ok := by
  obtain ⟨hhead, hhash, hins, hname⟩ := varSet_same hs
  exact ⟨by simpa [hhead, hhash, hname] using h.chain, hhead ▸ h.sorted, by
    simpa [hhead, hins] using h.bound⟩

theorem Unique.varSet (h : v.Unique) (hs : v.varSet pcVarName pcVarValue overwrite alloc = (e, o, v')) :
    v'.Unique := by
  obtain ⟨hhead, -, -, hname⟩ := varSet_same hs
  simpa [Unique, hhead, hname] using h

theorem insert_name (h : v.Ok) (hi : i ∈ v.header) :
    ((v.insert pcVarName pcVarValue).node i).pcVarName = (v.node i).pcVarName := by
  simp [insert, (h.bound i hi).ne]

theorem Ok.insert (h : v.Ok) : (v.insert pcVarName pcVarValue).Ok := by
  refine ⟨?_, ?_, ?_⟩
  · intro k
    have hold : (v.header.filter fun i =>
        hashHorner ((v.insert pcVarName pcVarValue).node i).pcVarName varHashSize = k) =
          v.hashTbl k := by
      rw [h.chain]
      refine List.filter_congr fun i hi => ?_
      rw [insert_name h hi]
    have hnew : ((v.insert pcVarName pcVarValue).node v.inserted).pcVarName = pcVarName := by
      simp [VarTable.insert]
    change Function.update v.hashTbl _ _ k = (v.inserted :: v.header).filter _
    rw [List.filter_cons, hold, hnew]
    by_cases hk : k = hashHorner pcVarName varHashSize
    · simp [hk]
    · simp [hk, Ne.symm hk]
  · exact List.pairwise_cons.mpr ⟨fun i hi => h.bound i hi, h.sorted⟩
  · intro i hi
    rcases List.mem_cons.mp hi with rfl | hi
    · exact Nat.lt_succ_self _
    · exact (h.bound i hi).trans (Nat.lt_succ_self _)

/-- One more node of the name. -/
theorem insert_countP (h : v.Ok) (name : Text) :
    (v.insert pcVarName pcVarValue).header.countP
        (fun i => ((v.insert pcVarName pcVarValue).node i).pcVarName = name) =
      v.header.countP (fun i => (v.node i).pcVarName = name) + if pcVarName = name then 1 else 0 := by
  have hold : v.header.countP
      (fun i => ((v.insert pcVarName pcVarValue).node i).pcVarName = name) =
        v.header.countP fun i => (v.node i).pcVarName = name := by
    refine List.countP_congr fun i hi => ?_
    rw [insert_name h hi]
  change (v.inserted :: v.header).countP _ = _
  rw [List.countP_cons, hold]
  simp [insert]

/-- An insertion keeps the names unique just when there is no node of the name. -/
theorem Unique.insert_iff (h : v.Ok) (hu : v.Unique) :
    (v.insert pcVarName pcVarValue).Unique ↔ v.Fresh pcVarName := by
  have hzero : v.Fresh pcVarName ↔ v.header.countP (fun i => (v.node i).pcVarName = pcVarName) = 0 := by
    simp [Fresh, List.countP_eq_zero]
  refine ⟨fun hi => ?_, fun hf name => ?_⟩
  · have hone := hi pcVarName
    rw [insert_countP h, if_pos rfl] at hone
    exact hzero.mpr (by omega)
  · rw [insert_countP h]
    split_ifs with hn
    · subst hn
      rw [hzero.mp hf]
    · exact hu name

theorem varDelete_cases (h : v.varDeleteByName pcVarName = (e, v')) :
    v' = v ∨ ∃ i, v.find pcVarName = some i ∧ v' = { v with
      header := v.header.erase i
      hashTbl := Function.update v.hashTbl (hashHorner pcVarName varHashSize)
        ((v.hashTbl (hashHorner pcVarName varHashSize)).erase i) } := by
  unfold varDeleteByName at h
  cases hf : v.find pcVarName with
  | none =>
    simp only [hf, Prod.mk.injEq] at h
    exact .inl h.2.symm
  | some i =>
    simp only [hf, Prod.mk.injEq] at h
    exact .inr ⟨i, rfl, h.2.symm⟩

theorem Ok.varDelete (h : v.Ok) (hd : v.varDeleteByName pcVarName = (e, v')) : v'.Ok := by
  rcases varDelete_cases hd with rfl | ⟨i, hf, rfl⟩
  · exact h
  · obtain ⟨hi, hn⟩ := h.find_some hf
    refine ⟨fun k => ?_, h.sorted.sublist List.erase_sublist, fun j hj => ?_⟩
    · change Function.update v.hashTbl _ _ k = (v.header.erase i).filter _
      rw [h.nodup.erase_eq_filter, List.filter_filter]
      by_cases hk : k = hashHorner pcVarName varHashSize
      · subst hk
        have hnd : (v.hashTbl (hashHorner pcVarName varHashSize)).Nodup := by
          rw [h.chain]
          exact h.nodup.filter _
        rw [Function.update_self, hnd.erase_eq_filter, h.chain, List.filter_filter]
        refine List.filter_congr fun j _ => ?_
        simp [Bool.and_comm]
      · rw [Function.update_of_ne hk, h.chain]
        refine List.filter_congr fun j _ => ?_
        by_cases hj : j = i
        · subst hj
          simp [hn, Ne.symm hk]
        · simp [hj]
    · exact h.bound j (List.mem_of_mem_erase hj)

theorem Unique.varDelete (h : v.Unique) (hd : v.varDeleteByName pcVarName = (e, v')) : v'.Unique := by
  rcases varDelete_cases hd with rfl | ⟨i, -, rfl⟩
  · exact h
  · exact fun name => (List.erase_sublist.countP_le).trans (h name)

end VarTable
end SylixOS.Shell
