import SylixOS.Tree.TrieLoad

/-! # Any content of the file

The records of a file stand in the order in which their nodes come into the lists of the reader. A file
that has been edited may give a node a most used character for which it has no record. -/

namespace SylixOS.Tree
open TrieNode

/-- A record of the file: its node, the end mark and the most used character. -/
structure Rec where
  path : Path
  isEnd : Bool
  mostUsed : Byte

/-- Why there are no more records. -/
inductive Ending where
  | done | eof | cut | outside
  deriving DecidableEq

/-- The records behind those in `rs`, where the nodes of the list are still to come. -/
def records : List Path → List Rec → List Byte → Ending × List Rec
  | [], rs, _ => (.done, rs)
  | _ :: _, rs, [] => (.eof, rs)
  | p :: ps, rs, c :: rest =>
    if signed c = -1 then (.eof, rs)
    else if c = 0 then records ps rs rest
    else if c < 128 then
      match rest with
      | e :: _ :: _ :: _ :: _ :: b :: rest =>
        records (p :: ps ++ [p ++ [c]]) (rs ++ [⟨p ++ [c], e.val % 2 = 1, b⟩]) rest
      | _ => (.cut, rs)
    else (.outside, rs)

/-- The last record of a node. -/
def lastRec (rs : List Rec) (q : Path) : Option Rec := rs.reverse.find? (·.path = q)

/-- The most used characters lead from a node to an end mark. -/
inductive Leads (rs : List Rec) : Path → Prop
  | stop {q : Path} {r : Rec} : lastRec rs q = some r → r.isEnd = true → Leads rs q
  | step {q : Path} {r : Rec} : lastRec rs q = some r → r.isEnd = false → r.mostUsed < 128 →
      Leads rs (q ++ [r.mostUsed]) → Leads rs q

/-- What a node has of its record. -/
def info (t : TrieNode) : Option (Bool × Option Byte) :=
  if t.isValid then some (t.isEnd, t.mostFrequentlyUsedChar) else none

/-- The nodes below the root are those of the records. -/
structure Holds (t : TrieNode) (rs : List Rec) : Prop where
  root : t.isValid = true
  node : ∀ q, q ≠ [] → info (t.at q) = (lastRec rs q).map fun r => (r.isEnd, some r.mostUsed)

variable {t t' u : TrieNode} {rs : List Rec} {r : Rec} {p q : Path} {ps next : List Path} {c i : Byte}
  {bytes rest : List Byte} {l n : ℕ}

theorem records_eof (h : signed c = -1) : records (p :: ps) rs (c :: rest) = (.eof, rs) := by
  rw [records.eq_def]
  exact if_pos h

theorem records_zero : records (p :: ps) rs (0 :: rest) = records ps rs rest := by
  rw [records.eq_def]
  exact (if_neg (by decide)).trans (if_pos rfl)

theorem records_outside (h : signed c ≠ -1) (hc : ¬ c < 128) :
    records (p :: ps) rs (c :: rest) = (.outside, rs) := by
  have hzero : c ≠ 0 := by
    rintro rfl
    exact hc (by decide)
  rw [records.eq_def]
  exact (if_neg h).trans ((if_neg hzero).trans (if_neg hc))

theorem records_record (hzero : c ≠ 0) (hc : c < 128) : records (p :: ps) rs (c :: rest) =
    match rest with
    | e :: _ :: _ :: _ :: _ :: b :: rest =>
      records (p :: ps ++ [p ++ [c]]) (rs ++ [⟨p ++ [c], e.val % 2 = 1, b⟩]) rest
    | _ => (.cut, rs) := by
  rw [records.eq_def]
  exact (if_neg (signed_ne hc)).trans ((if_neg hzero).trans (if_pos hc))

theorem info_of_fields (h : fields t = fields u) : info t = info u := by
  cases t <;> cases u <;> simp [fields, info, TrieNode.isValid, TrieNode.isEnd,
    TrieNode.mostFrequentlyUsedChar] at h ⊢
  exact ⟨h.1, h.2.2.2⟩

theorem lastRec_append_self (h : r.path = q) : lastRec (rs ++ [r]) q = some r := by
  unfold lastRec
  rw [List.reverse_append, List.reverse_singleton, List.singleton_append, List.find?_cons,
    decide_eq_true h]

theorem lastRec_append_of_ne (h : r.path ≠ q) : lastRec (rs ++ [r]) q = lastRec rs q := by
  unfold lastRec
  rw [List.reverse_append, List.reverse_singleton, List.singleton_append, List.find?_cons,
    decide_eq_false h]

theorem lastRec_eq_none (h : ∀ r ∈ rs, r.path ≠ q) : lastRec rs q = none := by
  refine List.find?_eq_none.mpr fun r hr => ?_
  simpa using h r (List.mem_reverse.mp hr)

/-- One more record is read, of a node that has no children yet. -/
theorem Holds.put (h : Holds t rs) (hp : (t.at p).isValid = true) (e : Bool) (f m : ℕ) (b : Byte)
    (hlen : ∀ r ∈ rs, r.path.length ≤ p.length + 1) :
    Holds (t.put (p ++ [i]) (.valid e f m (some b) fun _ => invalid)) (rs ++ [⟨p ++ [i], e, b⟩]) where
  root := by
    have hroot := fields_put (t := t) (q := p ++ [i]) (r := [])
      (u := .valid e f m (some b) fun _ => invalid) (by simp)
    rw [at_nil, at_nil] at hroot
    by_contra hv
    rw [fields_eq_none.mpr (by simpa using hv), eq_comm, fields_eq_none, h.root] at hroot
    cases hroot
  node q hq := by
    by_cases hpre : (p ++ [i]) <+: q
    · obtain ⟨s, rfl⟩ := hpre
      rw [List.append_assoc, List.singleton_append, put_at hp]
      cases s with
      | nil =>
        rw [lastRec_append_self rfl]
        rfl
      | cons j s =>
        rw [at_cons, TrieNode.child, invalid_at, lastRec_append_of_ne (by simp), lastRec_eq_none]
        · rfl
        · rintro r hr heq
          have := hlen r hr
          rw [heq, List.length_append, List.length_cons, List.length_cons] at this
          omega
    · rw [info_of_fields (fields_put hpre), h.node q hq, lastRec_append_of_ne]
      rintro rfl
      exact hpre List.prefix_rfl

/-! ## The reader -/

/-- Where the reader is, with the nodes of its level that are left and those of the next one. -/
structure Reading (l : ℕ) (ps next : List Path) (t : TrieNode) (rs : List Rec) : Prop where
  holds : Holds t rs
  level : ∀ p ∈ ps, p.length = l ∧ (t.at p).isValid = true
  next : ∀ p ∈ next, p.length = l + 1 ∧ (t.at p).isValid = true
  bound : ∀ r ∈ rs, r.path.length ≤ l + 1

/-- The lists of the reader make up the list of `records`. -/
def Agrees (l : ℕ) (ps ps' : List Path) (rs : List Rec) (bytes : List Byte) (next : List Path) :
    Load → Prop
  | .more t' next' rest => ∃ rs', records (ps ++ next) rs bytes = records (ps' ++ next') rs' rest ∧
      Reading l ps' next' t' rs' ∧ rest.length + ps.length ≤ bytes.length + ps'.length
  | .stop t' => ∃ rs', records (ps ++ next) rs bytes = (.eof, rs') ∧ Holds t' rs'
  | .edited _ => ∃ rs', records (ps ++ next) rs bytes = (.cut, rs')
  | .undefined => ∃ rs', records (ps ++ next) rs bytes = (.outside, rs')

theorem isValid_put (h : (t.at q).isValid = true) (hp : (t.at p).isValid = true) {e : Bool} {f m : ℕ}
    {b : Option Byte} (hlen : q.length ≤ p.length + 1) :
    ((t.put (p ++ [i]) (.valid e f m b fun _ => invalid)).at q).isValid = true := by
  by_cases hpre : (p ++ [i]) <+: q
  · obtain ⟨s, rfl⟩ := hpre
    have hs : s = [] := by
      simp only [List.length_append, List.length_singleton] at hlen
      exact List.length_eq_zero_iff.mp (by omega)
    subst hs
    rw [List.append_assoc, List.singleton_append, put_at hp]
    rfl
  · by_contra hv
    have hfields := fields_put (u := .valid e f m b fun _ => invalid) (t := t) hpre
    rw [fields_eq_none.mpr (by simpa using hv), eq_comm, fields_eq_none, h] at hfields
    cases hfields

theorem Reading.put (h : Reading l (p :: ps) next t rs) (e : Bool) (f m : ℕ) (b : Byte) :
    Reading l (p :: ps) (next ++ [p ++ [i]]) (t.put (p ++ [i]) (.valid e f m (some b) fun _ => invalid))
      (rs ++ [⟨p ++ [i], e, b⟩]) := by
  obtain ⟨hlen, hp⟩ := h.level p List.mem_cons_self
  have hvalid (q : Path) (hq : (t.at q).isValid = true) (hle : q.length ≤ l + 1) :
      ((t.put (p ++ [i]) (.valid e f m (some b) fun _ => invalid)).at q).isValid = true :=
    isValid_put hq hp (by omega)
  refine ⟨h.holds.put hp e f m b (by rw [hlen]; exact h.bound), fun q hq => ?_, fun q hq => ?_,
    fun r hr => ?_⟩
  · obtain ⟨hlq, hvq⟩ := h.level q hq
    exact ⟨hlq, hvalid q hvq (by omega)⟩
  · rcases List.mem_append.mp hq with hq | hq
    · obtain ⟨hlq, hvq⟩ := h.next q hq
      exact ⟨hlq, hvalid q hvq (by omega)⟩
    · rw [List.mem_singleton.mp hq]
      refine ⟨by rw [List.length_append, hlen]; rfl, ?_⟩
      rw [put_at (q := []) hp]
      rfl
  · rcases List.mem_append.mp hr with hr | hr
    · exact h.bound r hr
    · rw [List.mem_singleton.mp hr, List.length_append, hlen]
      rfl

theorem Agrees.of_eq {ps' ps₁ next₁ : List Path} {rs₁ : List Rec} {bytes₁ : List Byte} {x : Load}
    (h : Agrees l ps₁ ps' rs₁ bytes₁ next₁ x)
    (hlen : bytes₁.length + ps.length ≤ bytes.length + ps₁.length)
    (heq : records (ps ++ next) rs bytes = records (ps₁ ++ next₁) rs₁ bytes₁) :
    Agrees l ps ps' rs bytes next x := by
  cases x with
  | stop t =>
    obtain ⟨rs', hrec, hholds⟩ := h
    exact ⟨rs', heq.trans hrec, hholds⟩
  | edited t =>
    obtain ⟨rs', hrec⟩ := h
    exact ⟨rs', heq.trans hrec⟩
  | more t next' rest =>
    obtain ⟨rs', hrec, hreading, hle⟩ := h
    exact ⟨rs', heq.trans hrec, hreading, by omega⟩
  | undefined =>
    obtain ⟨rs', hrec⟩ := h
    exact ⟨rs', heq.trans hrec⟩

/-- The records of one node. -/
theorem readNode_agrees (bytes : List Byte) (h : Reading l (p :: ps) next t rs) :
    Agrees l (p :: ps) ps rs bytes next (readNode p t next bytes) := by
  induction hn : bytes.length using Nat.strong_induction_on generalizing t next rs bytes with
  | _ n ih =>
    unfold readNode
    split
    · exact ⟨rs, by rw [List.cons_append, records], h.holds⟩
    · next c rest =>
      split_ifs with heof hzero
      · exact ⟨rs, by rw [List.cons_append, records_eof heof], h.holds⟩
      · subst hzero
        refine ⟨rs, by rw [List.cons_append, records_zero], ?_, ?_⟩
        · exact ⟨h.holds, fun q hq => h.level q (List.mem_cons_of_mem p hq), h.next, h.bound⟩
        · simp only [List.length_cons]
          omega
      · by_cases hc : c < 128
        · rw [slot_of_lt hc]
          simp only
          split
          · next e f₀ f₁ m₀ m₁ b rest =>
            have hput := ih rest.length (by rw [← hn]; simp only [List.length_cons]; omega) rest
              (h.put (i := c) (decide (e.val % 2 = 1)) (field f₀ f₁) (field m₀ m₁) b) rfl
            refine hput.of_eq (by simp only [List.length_cons]; omega) ?_
            rw [List.cons_append, records_record hzero hc]
            simp only [List.cons_append, List.append_assoc]
          · next hshort =>
            refine ⟨rs, ?_⟩
            rw [List.cons_append, records_record hzero hc]
            split
            · next e f₀ f₁ m₀ m₁ b rest => exact absurd rfl (hshort e f₀ f₁ m₀ m₁ b rest)
            · rfl
        · rw [slot_of_not_lt hc]
          exact ⟨rs, by rw [List.cons_append, records_outside heof hc]⟩

/-- The records of one level. -/
theorem readLevel_agrees (bytes : List Byte) (h : Reading l ps next t rs) :
    Agrees l ps [] rs bytes next (readLevel ps t next bytes) := by
  induction ps generalizing t next rs bytes with
  | nil => exact ⟨rs, rfl, h, Nat.le_refl _⟩
  | cons p ps ih =>
    have hnode := readNode_agrees bytes h
    rw [readLevel]
    cases hx : readNode p t next bytes with
    | stop t' =>
      rw [hx] at hnode
      exact hnode
    | edited t' =>
      rw [hx] at hnode
      exact hnode
    | undefined =>
      rw [hx] at hnode
      exact hnode
    | more t' next' rest =>
      rw [hx] at hnode
      obtain ⟨rs', hrec, hreading, hle⟩ := hnode
      exact (ih rest hreading).of_eq (by rw [List.length_cons] at hle ⊢; omega) hrec

/-- How the reader ends with the records of the file. -/
def Ends (r : Option (Bool × TrieNode)) : Ending × List Rec → Prop
  | (.cut, _) => ∃ t, r = some (true, t)
  | (.outside, _) => r = none
  | (.done, rs) | (.eof, rs) => ∃ t, r = some (false, t) ∧ Holds t rs

/-- The whole file. -/
theorem readLevels_ends (h : Reading l ps [] t rs) (hn : bytes.length < n) :
    Ends (readLevels n ps t bytes) (records ps rs bytes) := by
  induction n generalizing l ps t rs bytes with
  | zero => omega
  | succ n ih =>
    cases ps with
    | nil =>
      rw [records, readLevels]
      exact ⟨t, rfl, h.holds⟩
    | cons p ps =>
      have hlevel := readLevel_agrees bytes h
      rw [readLevels]
      cases hx : readLevel (p :: ps) t [] bytes with
      | stop t' =>
        rw [hx] at hlevel
        obtain ⟨rs', hrec, hholds⟩ := hlevel
        rw [List.append_nil] at hrec
        rw [hrec]
        exact ⟨t', rfl, hholds⟩
      | edited t' =>
        rw [hx] at hlevel
        obtain ⟨rs', hrec⟩ := hlevel
        rw [List.append_nil] at hrec
        rw [hrec]
        exact ⟨t', rfl⟩
      | undefined =>
        rw [hx] at hlevel
        obtain ⟨rs', hrec⟩ := hlevel
        rw [List.append_nil] at hrec
        rw [hrec]
        exact rfl
      | more t' next' rest =>
        rw [hx] at hlevel
        obtain ⟨rs', hrec, hreading, hle⟩ := hlevel
        rw [List.append_nil, List.nil_append] at hrec
        rw [hrec]
        refine ih ⟨hreading.holds, hreading.next, by simp, fun r hr => ?_⟩ ?_
        · exact (hreading.bound r hr).trans (Nat.le_succ _)
        · rw [List.length_cons, List.length_nil] at hle
          omega

/-- The records of a file. -/
def fileRecords (bytes : List Byte) : Ending × List Rec := records [[]] [] bytes

theorem trieFromFileError_ends (bytes : List Byte) :
    Ends (trieFromFileError bytes) (fileRecords bytes) := by
  refine readLevels_ends (l := 0) ⟨⟨rfl, fun q hq => ?_⟩, fun p hp => ?_, by simp, by simp⟩
    (Nat.lt_succ_self _)
  · obtain ⟨c, q, rfl⟩ := List.exists_cons_of_ne_nil hq
    rw [at_cons, trieGetRoot, TrieNode.child, invalid_at]
    rfl
  · rw [List.mem_singleton.mp hp]
    exact ⟨rfl, rfl⟩

/-! ## The search -/

theorem info_isSome : (info t).isSome = t.isValid := by
  cases t <;> rfl

theorem Holds.isValid_eq (h : Holds t rs) (hq : q ≠ []) : (t.at q).isValid = (lastRec rs q).isSome := by
  rw [← info_isSome, h.node q hq, Option.isSome_map]

/-- The loop behind the prefix stays in the nodes exactly if the most used characters lead to an end
mark. -/
theorem Holds.mostUsed_isSome_iff (h : Holds t rs) (hq : q ≠ []) :
    (mostUsed (t.at q)).isSome = true ↔ Leads rs q := by
  constructor
  · intro hs
    induction hu : t.at q generalizing q with
    | invalid =>
      rw [hu] at hs
      cases hs
    | valid e f m b ch ih =>
      have hnode := h.node q hq
      rw [hu] at hs hnode
      obtain ⟨r, hr, hinfo⟩ := Option.map_eq_some_iff.mp hnode.symm
      injection hinfo with he hb
      change r.isEnd = e at he
      change some r.mostUsed = b at hb
      subst he hb
      cases he : r.isEnd with
      | true => exact .stop hr he
      | false =>
        rw [he, mostUsed, Option.bind_some] at hs
        by_cases hlt : r.mostUsed < 128
        · rw [slot_of_lt hlt, Option.bind_some, Option.isSome_map] at hs
          have hchild : t.at (q ++ [r.mostUsed]) = ch r.mostUsed := by rw [at_append, hu]; rfl
          exact .step hr he hlt (ih r.mostUsed (by simp) (hchild ▸ hs) hchild)
        · rw [slot_of_not_lt hlt] at hs
          cases hs
  · intro hl
    induction hl with
    | stop hr he =>
      have hnode := h.node _ hq
      rw [hr, Option.map_some, he] at hnode
      revert hnode
      cases t.at _ with
      | invalid => rintro ⟨⟩
      | valid e f m b ch =>
        intro hnode
        cases hnode
        rfl
    | @step q r hr he hlt _ ih =>
      have hnode := h.node q hq
      have hchild := ih (by simp)
      rw [at_append] at hchild
      rw [hr, Option.map_some, he] at hnode
      revert hnode hchild
      cases t.at q with
      | invalid => rintro ⟨⟩
      | valid e f m b ch =>
        intro hnode hchild
        cases hnode
        rw [mostUsed, Option.bind_some, slot_of_lt hlt, Option.bind_some, Option.isSome_map]
        exact hchild

/-- A search from any trie. -/
theorem trieSearch_isSome_iff : (trieSearch p t).isSome = true ↔
    (∀ q c r, p = q ++ c :: r → 128 ≤ c → (t.at q).isValid = false) ∧
      ((t.at p).isValid = true → (mostUsed (t.at p)).isSome = true) := by
  induction p generalizing t with
  | nil =>
    rw [trieSearch, at_nil]
    split_ifs with hv
    · simp [hv]
    · simp [hv]
  | cons c p ih =>
    rw [trieSearch]
    by_cases hv : t.isValid = true
    · rw [if_pos hv]
      by_cases hc : c < 128
      · rw [slot_of_lt hc, Option.bind_some, ih, at_cons]
        refine and_congr_left' ⟨fun h q d r heq hd => ?_, fun h q d r heq => ?_⟩
        · cases q with
          | nil =>
            cases heq
            exact absurd hc (Fin.not_lt.mpr hd)
          | cons e q =>
            cases heq
            exact h q d r rfl hd
        · exact h (c :: q) d r (congrArg (c :: ·) heq)
      · rw [slot_of_not_lt hc]
        refine iff_of_false (by rintro ⟨⟩) fun h => ?_
        have hroot := h.1 [] c p rfl (Fin.not_lt.mp hc)
        rw [at_nil, hv] at hroot
        cases hroot
    · rw [if_neg hv]
      cases t with
      | invalid =>
        refine iff_of_true rfl ⟨fun q _ _ _ _ => by rw [invalid_at]; rfl, fun h => ?_⟩
        rw [invalid_at] at h
        cases h
      | valid => exact absurd rfl hv

/-! ## What is claimed of the reader -/

/-- The reader comes to an end. It has reported an error, or the search with the prefix ends in the
nodes. -/
def SearchAfterLoad (bytes : List Byte) (p : List Byte) : Prop :=
  ∃ err t, trieFromFileError bytes = some (err, t) ∧ (err = true ∨ (trieSearch p t).isSome = true)

/-- No byte of the prefix from 128 on is looked up: it stands neither at its start nor behind a node. -/
def LooksUp (rs : List Rec) (p : List Byte) : Prop :=
  ∀ q c r, p = q ++ c :: r → 128 ≤ c → q ≠ [] ∧ lastRec rs q = none

/-- After reading any file the search is safe exactly if the file ends inside a record, or no record has
an index from 128 on, none is looked up, and the node of the prefix, if there is one, leads to an end. -/
theorem searchAfterLoad_iff (bytes : List Byte) (p : List Byte) (hp : p ≠ []) :
    SearchAfterLoad bytes p ↔ (fileRecords bytes).1 = .cut ∨
      (fileRecords bytes).1 ≠ .outside ∧ LooksUp (fileRecords bytes).2 p ∧
        ((lastRec (fileRecords bytes).2 p).isSome = true → Leads (fileRecords bytes).2 p) := by
  have hends := trieFromFileError_ends bytes
  have hread (rs : List Rec) (hr : ∃ t, trieFromFileError bytes = some (false, t) ∧ Holds t rs) :
      SearchAfterLoad bytes p ↔ LooksUp rs p ∧ ((lastRec rs p).isSome = true → Leads rs p) := by
    obtain ⟨t, ht, hholds⟩ := hr
    have hlook : (∀ q c r, p = q ++ c :: r → 128 ≤ c → (t.at q).isValid = false) ↔ LooksUp rs p := by
      refine forall_congr' fun q => forall₄_congr fun c r _ _ => ?_
      by_cases hq : q = []
      · subst hq
        refine iff_of_false (fun h => ?_) fun h => h.1 rfl
        rw [at_nil, hholds.root] at h
        cases h
      · rw [hholds.isValid_eq hq, and_iff_right hq, Option.isSome_eq_false_iff,
          Option.isNone_iff_eq_none]
    have hsearch := trieSearch_isSome_iff (t := t) (p := p)
    rw [hlook, hholds.isValid_eq hp, hholds.mostUsed_isSome_iff hp] at hsearch
    rw [← hsearch]
    constructor
    · rintro ⟨err, t', ht', herr⟩
      cases ht.symm.trans ht'
      exact herr.resolve_left nofun
    · exact fun h => ⟨false, t, ht, .inr h⟩
  generalize fileRecords bytes = x at hends ⊢
  obtain ⟨x, rs⟩ := x
  cases x with
  | cut =>
    obtain ⟨t, ht⟩ := hends
    exact iff_of_true ⟨true, t, ht, .inl rfl⟩ (.inl rfl)
  | outside =>
    refine iff_of_false ?_ ?_
    · rintro ⟨err, t, ht, -⟩
      cases ht.symm.trans hends
    · rintro (h | ⟨h, -⟩)
      · cases h
      · exact h rfl
  | done =>
    rw [hread rs hends]
    exact ⟨fun h => .inr ⟨nofun, h⟩, fun h => (h.resolve_left nofun).2⟩
  | eof =>
    rw [hread rs hends]
    exact ⟨fun h => .inr ⟨nofun, h⟩, fun h => (h.resolve_left nofun).2⟩

/-- The file of one command of one letter. -/
theorem searchAfterLoad_letter : SearchAfterLoad [97, 1, 1, 0, 0, 0, 0, 0, 0] [97] := by
  refine (searchAfterLoad_iff _ [97] (by simp)).mpr
    (.inr ⟨by decide, fun q c r heq hc => ?_, fun _ => .stop rfl rfl⟩)
  · cases q with
    | nil =>
      cases heq
      exact absurd hc (by decide)
    | cons d q =>
      have := congrArg List.length heq
      simp at this

/-- The letter has no end mark, and there is no record of its most used character. -/
theorem not_searchAfterLoad_letter : ¬ SearchAfterLoad [97, 0, 0, 0, 0, 0, 98, 0, 0] [97] := by
  rintro ⟨err, t, ht, h⟩
  cases ht
  rcases h with h | h
  · cases h
  · exact absurd h (by decide)

end SylixOS.Tree
