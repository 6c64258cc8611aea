import SylixOS.Lib.Store

/-! # Requests at a disk, and what a power cut leaves of them

A disk takes writes of single sectors and flushes of its write cache. When the power fails,
everything before the last flush is on the disk; of the writes after it each sector has kept its
old contents or taken those of one of the writes to it, in whatever order they were done.
-/

namespace SylixOS.Lib.Disk
open Store

variable {β : Type}

/-- One request: the write of one sector, or the flush of the write cache. -/
inductive IoEvent (β : Type) where
  | write (sec : ℕ) (data : List β)
  | sync
  deriving DecidableEq, Repr

/-- The contents of a sector of `S` cells. -/
def sector (S : ℕ) (f : ℕ → β) (s : ℕ) : List β := slice f (s * S) S

/-- The contents after one request. -/
def apply (S : ℕ) (f : ℕ → β) : IoEvent β → ℕ → β
  | .write s data => overlay f (s * S) data
  | .sync => f

/-- The contents after a list of requests, oldest first. -/
def applyAll (S : ℕ) (f : ℕ → β) (es : List (IoEvent β)) : ℕ → β := es.foldl (apply S) f

/-- The requests that a write of `n` sectors from a buffer is for the disk. -/
def writes (S : ℕ) (buf : List β) (s n : ℕ) : List (IoEvent β) :=
  (List.range n).map fun i => .write (s + i) ((buf.drop (i * S)).take S)

/-- Every write is of a whole sector. -/
def Whole (S : ℕ) (es : List (IoEvent β)) : Prop := ∀ s data, .write s data ∈ es → data.length = S

/-- The writes of a list go to sectors with property `P`. -/
def Within (P : ℕ → Prop) (es : List (IoEvent β)) : Prop := ∀ s data, .write s data ∈ es → P s

/-- `d` may be found on a disk that held `f` when the power failed during the requests `es`:
`done` was on the disk, `pend` was in the cache, and the rest was never issued. -/
def Crash (S : ℕ) (f : ℕ → β) (es : List (IoEvent β)) (d : ℕ → β) : Prop :=
  ∃ done pend rest, es = done ++ pend ++ rest ∧ .sync ∉ pend ∧ ∀ s,
    sector S d s = sector S (applyAll S f done) s ∨
      ∃ data, .write s data ∈ pend ∧ sector S d s = data

/-- `g` may be on a disk that held `f` when all requests `es` have been issued. -/
def OnDisk (S : ℕ) (f : ℕ → β) (es : List (IoEvent β)) (g : ℕ → β) : Prop :=
  ∃ done pend, es = done ++ pend ∧ .sync ∉ pend ∧ ∀ s,
    sector S g s = sector S (applyAll S f done) s ∨
      ∃ data, .write s data ∈ pend ∧ sector S g s = data

/-- After the requests `es` only writes to sectors with property `P` can still be in the cache. -/
def Flushed (P : ℕ → Prop) (es : List (IoEvent β)) : Prop :=
  ∀ done pend, es = done ++ pend → .sync ∉ pend → Within P pend

variable {S : ℕ} {f : ℕ → β} {es es₁ es₂ : List (IoEvent β)}

/-! ## Sectors -/

theorem sector_eq_iff (hS : 0 < S) {f g : ℕ → β} {s : ℕ} :
    sector S f s = sector S g s ↔ ∀ x, x / S = s → f x = g x := by
  constructor
  · rintro h x rfl
    have hx : (sector S f (x / S))[x % S]? = (sector S g (x / S))[x % S]? := by rw [h]
    have hlt := Nat.mod_lt x hS
    rw [sector, sector, slice_getElem?, slice_getElem?, if_pos hlt, if_pos hlt,
      Nat.div_add_mod'] at hx
    exact Option.some.inj hx
  · intro h
    refine slice_congr fun x h₁ h₂ => h x ?_
    rw [Nat.div_eq_iff hS]
    omega

theorem sector_overlay_self (f : ℕ → β) {s : ℕ} {data : List β} (h : data.length = S) :
    sector S (overlay f (s * S) data) s = data := by
  unfold sector
  conv_rhs => rw [← slice_overlay_self f (s * S) data, h]

theorem sector_overlay_other (f : ℕ → β) {s t : ℕ} {data : List β} (h : data.length = S)
    (hst : t ≠ s) : sector S (overlay f (s * S) data) t = sector S f t := by
  refine slice_overlay_disjoint _ _ _ _ _ ?_
  rw [h]
  rcases Nat.lt_or_gt_of_ne hst with hlt | hlt
  · left
    calc t * S + S = (t + 1) * S := by rw [Nat.add_mul, Nat.one_mul]
      _ ≤ s * S := Nat.mul_le_mul_right _ hlt
  · right
    calc s * S + S = (s + 1) * S := by rw [Nat.add_mul, Nat.one_mul]
      _ ≤ t * S := Nat.mul_le_mul_right _ hlt

/-- A run of sectors copied from one store to another. -/
theorem sector_copy (f g : ℕ → β) (a b n s : ℕ) :
    sector S (overlay f (a * S) (slice g (b * S) (n * S))) s =
      if a ≤ s ∧ s < a + n then sector S g (b + (s - a)) else sector S f s := by
  split_ifs with h
  · obtain ⟨k, hk⟩ := Nat.exists_eq_add_of_le h.1
    subst hk
    refine List.map_congr_left fun i hi => ?_
    have hi := List.mem_range.mp hi
    have hlt : k * S + i < n * S := by
      have : (k + 1) * S ≤ n * S := Nat.mul_le_mul_right _ (by omega)
      rw [Nat.add_mul, Nat.one_mul] at this
      omega
    apply Option.some.inj
    rw [Nat.add_mul, Nat.add_assoc, overlay_eq _ _ _ _ (by rw [slice_length]; omega),
      Nat.add_sub_cancel_left, slice_getElem?, if_pos hlt, Nat.add_sub_cancel_left, Nat.add_mul]
    congr 2
    omega
  · refine slice_overlay_disjoint _ _ _ _ _ ?_
    rw [slice_length, ← Nat.add_mul]
    rcases Nat.lt_or_ge s a with hs | hs
    · left
      calc s * S + S = (s + 1) * S := by rw [Nat.add_mul, Nat.one_mul]
        _ ≤ a * S := Nat.mul_le_mul_right _ hs
    · right
      exact Nat.mul_le_mul_right _ (by omega)

/-! ## Lists of requests -/

@[simp] theorem applyAll_nil : applyAll S f [] = f := rfl

@[simp] theorem applyAll_append :
    applyAll S f (es₁ ++ es₂) = applyAll S (applyAll S f es₁) es₂ := List.foldl_append

@[simp] theorem applyAll_sync : applyAll S f (.sync :: es) = applyAll S f es := rfl

theorem applyAll_cons_write {s : ℕ} {data : List β} :
    applyAll S f (.write s data :: es) = applyAll S (overlay f (s * S) data) es := rfl

theorem Whole.append (h₁ : Whole S es₁) (h₂ : Whole S es₂) : Whole S (es₁ ++ es₂) :=
  fun s data h => (List.mem_append.mp h).elim (h₁ s data) (h₂ s data)

theorem Within.append {P : ℕ → Prop} (h₁ : Within P es₁) (h₂ : Within P es₂) :
    Within P (es₁ ++ es₂) :=
  fun s data h => (List.mem_append.mp h).elim (h₁ s data) (h₂ s data)

theorem Whole.sync : Whole S [(.sync : IoEvent β)] := fun _ _ h => by simp at h

theorem Within.sync {P : ℕ → Prop} : Within P [(.sync : IoEvent β)] := fun _ _ h => by simp at h

theorem Within.mono {P Q : ℕ → Prop} (h : Within P es) (hPQ : ∀ s, P s → Q s) : Within Q es :=
  fun s data hm => hPQ s (h s data hm)

/-- A sector that no request writes is as before. -/
theorem sector_applyAll {P : ℕ → Prop} (hw : Whole S es) (hp : Within P es) {s : ℕ} (hs : ¬ P s) :
    sector S (applyAll S f es) s = sector S f s := by
  induction es generalizing f with
  | nil => rfl
  | cons e es ih =>
    have hw' : Whole S es := fun t data h => hw t data (List.mem_cons_of_mem _ h)
    have hp' : Within P es := fun t data h => hp t data (List.mem_cons_of_mem _ h)
    cases e with
    | sync => exact ih hw' hp'
    | write t data =>
      rw [applyAll_cons_write, ih hw' hp']
      refine sector_overlay_other f (hw t data List.mem_cons_self) ?_
      rintro rfl
      exact hs (hp s data List.mem_cons_self)

/-- A sector that is written, or that was the same before, is the same after. -/
theorem sector_applyAll_congr {g : ℕ → β} (hw : Whole S es) {s : ℕ}
    (h : (∃ data, .write s data ∈ es) ∨ sector S f s = sector S g s) :
    sector S (applyAll S f es) s = sector S (applyAll S g es) s := by
  induction es generalizing f g with
  | nil =>
    rcases h with ⟨_, h⟩ | h
    · cases h
    · exact h
  | cons e es ih =>
    have hw' : Whole S es := fun t data h => hw t data (List.mem_cons_of_mem _ h)
    cases e with
    | sync =>
      refine ih hw' (h.imp_left ?_)
      rintro ⟨data, h⟩
      exact ⟨data, by simpa using h⟩
    | write t data =>
      have hl := hw t data List.mem_cons_self
      refine ih hw' ?_
      rcases eq_or_ne s t with rfl | hst
      · right
        rw [apply, apply, sector_overlay_self f hl, sector_overlay_self g hl]
      · rcases h with ⟨data', h⟩ | h
        · left
          refine ⟨data', ?_⟩
          rcases List.mem_cons.mp h with h | h
          · exact absurd (IoEvent.write.inj h).1 hst
          · exact h
        · right
          rw [apply, apply, sector_overlay_other f hl hst, sector_overlay_other g hl hst, h]

section Writes

variable {buf : List β} {s n : ℕ}

theorem mem_writes {t : ℕ} {data : List β} : .write t data ∈ writes S buf s n ↔
    ∃ i < n, t = s + i ∧ data = (buf.drop (i * S)).take S := by
  simp only [writes, List.mem_map, List.mem_range, IoEvent.write.injEq]
  constructor
  · rintro ⟨i, hi, rfl, rfl⟩
    exact ⟨i, hi, rfl, rfl⟩
  · rintro ⟨i, hi, rfl, rfl⟩
    exact ⟨i, hi, rfl, rfl⟩

theorem Whole.writes (h : n * S ≤ buf.length) : Whole S (writes S buf s n) := by
  intro t data hm
  obtain ⟨i, hi, -, rfl⟩ := mem_writes.mp hm
  have : (i + 1) * S ≤ n * S := Nat.mul_le_mul_right _ hi
  rw [Nat.add_mul, Nat.one_mul] at this
  rw [List.length_take, List.length_drop]
  omega

theorem Within.writes {P : ℕ → Prop} (h : ∀ i < n, P (s + i)) : Within P (writes S buf s n) := by
  intro t data hm
  obtain ⟨i, hi, rfl, -⟩ := mem_writes.mp hm
  exact h i hi

theorem applyAll_writes (h : n * S ≤ buf.length) :
    applyAll S f (writes S buf s n) = overlay f (s * S) (buf.take (n * S)) := by
  induction n with
  | zero => simp [Disk.writes]
  | succ n ih =>
    rw [Nat.add_mul, Nat.one_mul] at h
    have hsucc : Disk.writes S buf s (n + 1) =
        Disk.writes S buf s n ++ [.write (s + n) ((buf.drop (n * S)).take S)] := by
      simp [Disk.writes, List.range_succ]
    have hlen : (buf.take (n * S)).length = n * S := by rw [List.length_take]; omega
    rw [hsucc, applyAll_append, ih (by omega), Nat.add_mul, Nat.one_mul, List.take_add,
      overlay_append, hlen, ← Nat.add_mul]
    rfl

end Writes

/-! ## Power cuts -/

/-- A flush separates: the power fails before it, or all that came before it is on the disk. -/
theorem Crash.of_append_sync {d : ℕ → β} (h : Crash S f (es₁ ++ .sync :: es₂) d) :
    Crash S f es₁ d ∨ Crash S (applyAll S f es₁) es₂ d := by
  obtain ⟨done, pend, rest, he, hs, hd⟩ := h
  rcases List.append_eq_append_iff.mp he with ⟨t, ht, h₂⟩ | ⟨t, ht, h₂⟩
  · -- the requests that were issued go beyond `es₁`
    cases t with
    | nil =>
      rw [List.append_nil] at ht
      exact .inl ⟨done, pend, [], by rw [ht, List.append_nil], hs, hd⟩
    | cons e t =>
      obtain ⟨rfl, rfl⟩ := List.cons_eq_cons.mp (h₂.trans (List.cons_append ..))
      rcases List.append_eq_append_iff.mp ht with ⟨u, hu, h₃⟩ | ⟨u, hu, h₃⟩
      · exact absurd (h₃ ▸ by simp) hs
      · cases u with
        | nil =>
          rw [List.nil_append] at h₃
          exact absurd (h₃ ▸ by simp) hs
        | cons e u =>
          obtain ⟨rfl, rfl⟩ := List.cons_eq_cons.mp (h₃.trans (List.cons_append ..))
          refine .inr ⟨u, pend, rest, rfl, hs, fun s => ?_⟩
          have := hd s
          rwa [hu, applyAll_append, applyAll_sync] at this
  · exact .inl ⟨done, pend, t, ht, hs, hd⟩

/-- What a power cut can have changed: only sectors that were written. -/
theorem Crash.sector_eq {P : ℕ → Prop} {d : ℕ → β} (h : Crash S f es d) (hw : Whole S es)
    (hp : Within P es) {s : ℕ} (hs : ¬ P s) : sector S d s = sector S f s := by
  obtain ⟨done, pend, rest, rfl, -, hd⟩ := h
  rcases hd s with h | ⟨data, hm, -⟩
  · rw [h]
    refine sector_applyAll (P := P) (fun t data ht => hw t data ?_) (fun t data ht => hp t data ?_) hs
    · exact List.mem_append_left _ (List.mem_append_left _ ht)
    · exact List.mem_append_left _ (List.mem_append_left _ ht)
  · exact absurd (hp s data (List.mem_append_left _ (List.mem_append_right _ hm))) hs

/-- The write of one sector is done or not done. -/
theorem Crash.single {s : ℕ} {data : List β} {d : ℕ → β} (hl : data.length = S)
    (h : Crash S f [.write s data] d) :
    (∀ t, sector S d t = sector S f t) ∨
      ∀ t, sector S d t = sector S (overlay f (s * S) data) t := by
  have hother (t : ℕ) (ht : t ≠ s) : sector S d t = sector S f t := by
    refine h.sector_eq (P := (· = s)) ?_ ?_ ht
    · intro t data' ht
      obtain ⟨rfl, rfl⟩ := IoEvent.write.inj (List.mem_singleton.mp ht)
      exact hl
    · intro t data' ht
      exact (IoEvent.write.inj (List.mem_singleton.mp ht)).1
  have hself : sector S d s = sector S f s ∨ sector S d s = data := by
    obtain ⟨done, pend, rest, he, -, hd⟩ := h
    rcases hd s with h | ⟨data', hm, h⟩
    · cases done with
      | nil => exact .inl h
      | cons e done =>
        simp only [List.cons_append, List.cons.injEq, List.nil_eq, List.append_eq_nil_iff] at he
        obtain ⟨rfl, ⟨rfl, -⟩, -⟩ := he
        exact .inr (h.trans (sector_overlay_self f hl))
    · have : IoEvent.write s data' ∈ [IoEvent.write s data] := by
        rw [he]
        exact List.mem_append_left _ (List.mem_append_right _ hm)
      exact .inr (h.trans (IoEvent.write.inj (List.mem_singleton.mp this)).2)
  rcases hself with h | h
  · refine .inl fun t => ?_
    rcases eq_or_ne t s with rfl | ht
    · exact h
    · exact hother t ht
  · refine .inr fun t => ?_
    rcases eq_or_ne t s with rfl | ht
    · rw [h, sector_overlay_self f hl]
    · rw [hother t ht, sector_overlay_other f hl ht]

theorem Flushed.nil {P : ℕ → Prop} : Flushed P ([] : List (IoEvent β)) := by
  intro done pend he _ s data hm
  rw [(List.append_eq_nil_iff.mp he.symm).2] at hm
  cases hm

theorem Flushed.sync {P : ℕ → Prop} : Flushed P (es ++ [.sync]) := by
  intro done pend he hs s data hm
  rcases List.eq_nil_or_concat' pend with rfl | ⟨l, e, rfl⟩
  · cases hm
  · rw [← List.append_assoc] at he
    obtain ⟨-, h⟩ := List.append_inj' he rfl
    exact absurd (by rw [← List.singleton_inj.mp h]; simp) hs

theorem Flushed.append {P : ℕ → Prop} (h : Flushed P es₁) (hp : Within P es₂) :
    Flushed P (es₁ ++ es₂) := by
  intro done pend he hs
  rcases List.append_eq_append_iff.mp he with ⟨t, -, rfl⟩ | ⟨t, ht, rfl⟩
  · exact fun s data hm => hp s data (List.mem_append_right _ hm)
  · exact (h done t ht fun hm => hs (List.mem_append_left _ hm)).append hp

/-- Sectors without property `P` are on the disk as the requests have left them. -/
theorem OnDisk.sector_eq {P : ℕ → Prop} {g : ℕ → β} (h : OnDisk S f es g) (hw : Whole S es)
    (hf : Flushed P es) {s : ℕ} (hs : ¬ P s) :
    sector S g s = sector S (applyAll S f es) s := by
  obtain ⟨done, pend, rfl, hsync, hg⟩ := h
  have hp := hf done pend rfl hsync
  rcases hg s with hg | ⟨data, hm, -⟩
  · rw [hg, applyAll_append]
    exact (sector_applyAll (fun s data hm => hw s data (List.mem_append_right _ hm)) hp hs).symm
  · exact absurd (hp s data hm) hs

end SylixOS.Lib.Disk
