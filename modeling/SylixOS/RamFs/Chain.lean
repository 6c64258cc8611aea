import SylixOS.RamFs.Node

/-! # Cutting a chain and adding to it -/

namespace SylixOS.RamFs
open Lib Blocks

variable {cfg : RamCfg} {pramn : RamNode} {pramfs : RamVolume} {s s' : RamVolume × RamNode}
  {l bs : List ℕ} {n stOft : ℕ} {clear : Bool} {given : List RamBuffer}

theorem blocksFor_le_iff {i : ℕ} : blocksFor cfg n ≤ i ↔ n ≤ i * cfg.bDataSize := by
  have hdm := Nat.div_add_mod' n cfg.bDataSize
  have hmod := Nat.mod_lt n cfg.pos
  unfold blocksFor
  constructor
  · intro h
    split_ifs at h
    · have := Nat.mul_le_mul_right cfg.bDataSize h
      rw [Nat.add_mul, Nat.one_mul] at this
      omega
    · have := Nat.mul_le_mul_right cfg.bDataSize h
      omega
  · intro h
    have hle : n / cfg.bDataSize ≤ i := Nat.div_le_of_le_mul (by rwa [Nat.mul_comm])
    split_ifs with hne
    · rcases Nat.eq_or_lt_of_le hle with heq | hlt
      · rw [heq] at hdm
        omega
      · exact hlt
    · exact hle

/-! ## Truncation -/

theorem truncFrom_eq (i : ℕ) :
    truncFrom cfg stOft (i * cfg.bDataSize) l = l.drop (blocksFor cfg stOft - i) := by
  induction l generalizing i with
  | nil => simp [truncFrom]
  | cons p l ih =>
    unfold truncFrom
    split_ifs with h
    · rw [← blocksFor_le_iff] at h
      rw [Nat.sub_eq_zero_of_le h, List.drop_zero]
    · rw [← blocksFor_le_iff] at h
      have hih := ih (i + 1)
      rw [Nat.add_mul, Nat.one_mul] at hih
      rw [hih, show blocksFor cfg stOft - i = blocksFor cfg stOft - (i + 1) + 1 by omega,
        List.drop_succ_cons]

/-- The loop of a truncation takes all its blocks from the chain, and frees no others. -/
theorem truncLoop_spec (hchain : s.2.plineBStart = bs ++ l) (hnodup : s.2.plineBStart.Nodup) :
    ∃ used, truncLoop l s = ({ s.1 with used, ulCurBlk := s.1.ulCurBlk - l.length },
      { s.2 with plineBStart := bs, ulCnt := s.2.ulCnt - l.length }) ∧
      ∀ p ∈ s.1.used, p ∉ l → p ∈ used := by
  induction l generalizing s with
  | nil =>
    rw [List.append_nil] at hchain
    refine ⟨s.1.used, ?_, fun p hp _ => hp⟩
    simp only [truncLoop, List.length_nil, Nat.sub_zero, ← hchain]
  | cons q l ih =>
    rw [hchain] at hnodup
    have hq : q ∉ bs := fun hmem => (List.nodup_append.mp hnodup).2.2 q hmem q List.mem_cons_self rfl
    have herase : (truncBlock q l.head? s).2.plineBStart = bs ++ l := by
      change s.2.plineBStart.erase q = bs ++ l
      rw [hchain, List.erase_append_right _ hq, List.erase_cons_head]
    have hsub : (bs ++ l).Nodup :=
      hnodup.sublist ((List.Sublist.refl _).append (List.sublist_cons_self _ _))
    obtain ⟨used, heq, hused⟩ := ih herase (herase ▸ hsub)
    refine ⟨used, ?_, fun p hp hmem => hused p ?_ fun hl => hmem (List.mem_cons_of_mem _ hl)⟩
    · rw [truncLoop, heq, List.length_cons]
      dsimp only [truncBlock]
      rw [Nat.sub_sub, Nat.sub_sub, Nat.add_comm 1]
    · cases l with
      | nil => exact hp
      | cons r l =>
        refine Finset.mem_erase.mpr ⟨fun heq => hmem ?_, hp⟩
        rw [heq]
        exact List.mem_cons_of_mem _ List.mem_cons_self

theorem blocksFor_zero : blocksFor cfg 0 = 0 :=
  Nat.le_zero.mp (blocksFor_le_iff.mpr (Nat.zero_le _))

/-- The last block after a truncation from a block on, if that is the first block or the last one. -/
theorem Linked.truncate_end (h : Linked pramn) {k p : ℕ} (hdrop : pramn.plineBStart.drop k = p :: l)
    (hcut : pramn.ulCnt ≤ k + 1 ∨ k = 0) :
    (if pramn.plineBStart.head? = some p then none
      else if pramn.plineBEnd = some p then prev pramn.plineBStart p else pramn.plineBEnd) =
      (pramn.plineBStart.take k).getLast? := by
  have hlen := congrArg List.length hdrop
  rw [List.length_drop, List.length_cons] at hlen
  have hat : pramn.plineBStart[k]? = some p := by
    rw [← Nat.add_zero k, ← List.getElem?_drop, hdrop]
    rfl
  have hidx := idxOf_of_getElem? h.nodup hat
  rw [List.head?_eq_getElem?]
  split_ifs with hhead hlast
  · have hk : k = 0 := by
      rw [← hidx]
      exact idxOf_of_getElem? h.nodup hhead
    rw [hk]
    rfl
  · have hk : k ≠ 0 := by
      rintro rfl
      exact hhead hat
    rw [prev, hidx, if_neg hk, List.getLast?_eq_getElem?, List.length_take,
      Nat.min_eq_left (by omega), List.getElem?_take_of_lt (by omega)]
  · refine absurd ?_ hlast
    rcases hcut with hcut | rfl
    · rw [h.last, List.getLast?_eq_getElem?, ← hat, ← h.cnt]
      congr 1
      have := h.cnt
      omega
    · exact absurd hat hhead

/-- A truncation leaves the blocks before the place; the ends are right when all blocks go or at most
one. -/
theorem Linked.truncate (h : Linked pramn)
    (hcut : pramn.ulCnt ≤ blocksFor cfg stOft + 1 ∨ stOft = 0) :
    ∃ used pramn', ramTruncate cfg pramfs pramn stOft = ({ pramfs with
        used, ulCurBlk := pramfs.ulCurBlk - (pramn.plineBStart.length - pramn'.plineBStart.length) },
        pramn') ∧ Linked pramn' ∧
      pramn'.plineBStart = pramn.plineBStart.take (blocksFor cfg stOft) ∧ pramn'.stVSize = stOft ∧
      ∀ p ∈ pramfs.used, p ∉ pramn.plineBStart.drop (blocksFor cfg stOft) → p ∈ used := by
  have hfrom : truncFrom cfg stOft 0 pramn.plineBStart =
      pramn.plineBStart.drop (blocksFor cfg stOft) := by
    have := @truncFrom_eq cfg pramn.plineBStart stOft 0
    rwa [Nat.zero_mul, Nat.sub_zero] at this
  unfold ramTruncate
  rw [hfrom]
  cases hdrop : pramn.plineBStart.drop (blocksFor cfg stOft) with
  | nil =>
    have hle := List.drop_eq_nil_iff.mp hdrop
    refine ⟨pramfs.used, { pramn with stSize := stOft, stVSize := stOft }, ?_, ?_,
      (List.take_of_length_le hle).symm, rfl, fun p hp _ => hp⟩
    · dsimp only
      rw [Nat.sub_self, Nat.sub_zero]
    · exact ⟨h.nodup, h.cnt, h.last, h.cookie, le_rfl⟩
  | cons p l =>
    have hcut' : pramn.ulCnt ≤ blocksFor cfg stOft + 1 ∨ blocksFor cfg stOft = 0 := by
      refine hcut.imp_right fun hz => ?_
      rw [hz, blocksFor_zero]
    have hend := h.truncate_end hdrop hcut'
    have hchain : pramn.plineBStart = pramn.plineBStart.take (blocksFor cfg stOft) ++ (p :: l) := by
      rw [← hdrop, List.take_append_drop]
    have hlen := congrArg List.length hchain
    rw [List.length_append] at hlen
    dsimp only
    rw [hend]
    obtain ⟨used, heq, hused⟩ := truncLoop_spec (l := p :: l) (s := (pramfs, { pramn with
      plineBEnd := (pramn.plineBStart.take (blocksFor cfg stOft)).getLast?, prambCookie := none }))
      hchain h.nodup
    rw [heq]
    refine ⟨used, { pramn with
      plineBStart := pramn.plineBStart.take (blocksFor cfg stOft)
      plineBEnd := (pramn.plineBStart.take (blocksFor cfg stOft)).getLast?
      ulCnt := pramn.ulCnt - (p :: l).length
      prambCookie := none
      stSize := stOft
      stVSize := stOft }, ?_, ?_, rfl, rfl, hused⟩
    · dsimp only
      rw [show pramn.plineBStart.length - (pramn.plineBStart.take (blocksFor cfg stOft)).length =
        (p :: l).length by omega]
    · refine ⟨h.nodup.sublist (List.take_sublist _ _), ?_, rfl, (fun p hp => by cases hp), le_rfl⟩
      have hcnt := h.cnt
      dsimp only
      omega

/-! ## Growth -/

/-- A block that is appended becomes the last one. -/
theorem Linked.append (clear : Bool) (h : Linked s.2) {pramb : RamBuffer} (hnew : pramb.addr ∉ s.2.plineBStart) :
    (appendBlock clear pramb s).2 = { s.2 with
      plineBStart := s.2.plineBStart ++ [pramb.addr]
      plineBEnd := some pramb.addr
      ulCnt := s.2.ulCnt + 1 } ∧ Linked (appendBlock clear pramb s).2 := by
  have heq : (appendBlock clear pramb s).2 = { s.2 with
      plineBStart := s.2.plineBStart ++ [pramb.addr]
      plineBEnd := some pramb.addr
      ulCnt := s.2.ulCnt + 1 } := by
    have hlast := h.last
    unfold appendBlock
    cases hend : s.2.plineBEnd with
    | none =>
      rw [hend] at hlast
      rw [List.getLast?_eq_none_iff.mp hlast.symm]
      rfl
    | some e =>
      rw [hend] at hlast
      obtain ⟨ys, hys⟩ := List.getLast?_eq_some_iff.mp hlast.symm
      have he : e ∉ ys := by
        have hnodup := h.nodup
        rw [hys] at hnodup
        exact fun hmem => (List.nodup_append.mp hnodup).2.2 e hmem e (List.mem_singleton_self e) rfl
      dsimp only
      rw [hys, addRight_last he, List.append_assoc]
      rfl
  refine ⟨heq, ?_⟩
  rw [heq]
  refine ⟨?_, ?_, ?_, fun p hp => ?_, h.size_le⟩
  · rw [List.nodup_append]
    refine ⟨h.nodup, List.nodup_singleton _, fun a ha b hb hab => hnew ?_⟩
    rw [← List.mem_singleton.mp hb, ← hab]
    exact ha
  · rw [List.length_append, List.length_singleton, h.cnt]
  · rw [List.getLast?_concat]
  · have hcookie := h.cookie p hp
    obtain ⟨hlt, -⟩ := List.getElem?_eq_some_iff.mp hcookie
    dsimp only
    rw [List.getElem?_append_left hlt, hcookie]

/-- The blocks that `n` rounds of the loop allocate come behind those that are there. -/
theorem automemLoop_spec (h : Linked s.2) (hnodup : (given.map RamBuffer.addr).Nodup)
    (hnew : ∀ b ∈ given, b.addr ∉ s.2.plineBStart) :
    ∃ data used plineBEnd, automemLoop clear n given s = (({ s.1 with
        ucData := data, used, ulCurBlk := s.1.ulCurBlk + (given.take n).length },
      { s.2 with
        plineBStart := s.2.plineBStart ++ (given.take n).map RamBuffer.addr
        plineBEnd
        ulCnt := s.2.ulCnt + (given.take n).length }), decide (n ≤ given.length)) ∧
      Linked (automemLoop clear n given s).1.2 ∧
      (∀ p, p ∈ used ↔ p ∈ s.1.used ∨ p ∈ (given.take n).map RamBuffer.addr) ∧
      (∀ p, p ∉ (given.take n).map RamBuffer.addr → data p = s.1.ucData p) ∧
      ∀ b ∈ given.take n, data b.addr = if clear then fun _ => 0 else b.ucData := by
  induction n generalizing given s with
  | zero =>
    refine ⟨s.1.ucData, s.1.used, s.2.plineBEnd, ?_, h, ?_, fun _ _ => rfl, ?_⟩
    · simp [automemLoop]
    · simp
    · simp
  | succ n ih =>
    cases given with
    | nil =>
      refine ⟨s.1.ucData, s.1.used, s.2.plineBEnd, ?_, h, ?_, fun _ _ => rfl, ?_⟩
      · simp [automemLoop]
      · simp
      · simp
    | cons pramb given =>
      rw [List.map_cons, List.nodup_cons] at hnodup
      obtain ⟨heq, hlinked⟩ := h.append clear (hnew pramb List.mem_cons_self)
      have hnew' : ∀ b ∈ given, b.addr ∉ (appendBlock clear pramb s).2.plineBStart := by
        intro b hb hmem
        rw [heq] at hmem
        rcases List.mem_append.mp hmem with hmem | hmem
        · exact hnew b (List.mem_cons_of_mem _ hb) hmem
        · rw [List.mem_singleton] at hmem
          exact hnodup.1 (hmem ▸ List.mem_map_of_mem hb)
      obtain ⟨data, used, plineBEnd, hloop, hl, hused, hother, hdata⟩ := ih hlinked hnodup.2 hnew'
      have htake : pramb.addr ∉ (given.take n).map RamBuffer.addr := fun hmem =>
        hnodup.1 (((List.take_sublist _ _).map _).subset hmem)
      refine ⟨data, used, plineBEnd, ?_, hl, fun p => ?_, fun p hp => ?_, fun b hb => ?_⟩
      · rw [automemLoop, hloop, heq]
        simp only [appendBlock, List.take_succ_cons, List.map_cons, List.length_cons,
          List.append_assoc, List.singleton_append, Nat.add_le_add_iff_right, Nat.add_assoc,
          Nat.add_comm 1]
      · rw [hused, List.take_succ_cons, List.map_cons, List.mem_cons]
        simp only [appendBlock, Finset.mem_insert]
        tauto
      · rw [List.take_succ_cons, List.map_cons, List.mem_cons, not_or] at hp
        rw [hother p hp.2]
        exact Function.update_of_ne hp.1 _ _
      · rw [List.take_succ_cons, List.mem_cons] at hb
        rcases hb with rfl | hb
        · rw [hother _ htake]
          exact Function.update_self _ _ _
        · exact hdata b hb

end SylixOS.RamFs
