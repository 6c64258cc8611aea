import SylixOS.Shell.History
import SylixOS.Shell.TshellWrapper
import Mathlib.Data.List.Induction

/-! # What Tab completes

Tab looks for the last word of the line among the keywords, if it is the only one, or else in a
directory. The matches are gone through one after the other, and only the length of their common part
is kept.
-/

namespace SylixOS.Shell

/-- A text that ends at its end mark. -/
abbrev CString := {t : Text // pxEos ∉ t}

/-- The text up to the first end mark. -/
def cString (t : Text) : CString :=
  ⟨t.takeWhile (· ≠ pxEos), fun h => by simpa using List.mem_takeWhile_imp h⟩

theorem cString_append (t r : Text) : (cString (t ++ pxEos :: r)).val = (cString t).val := by
  change (t ++ pxEos :: r).takeWhile _ = t.takeWhile _
  induction t with
  | nil => simp
  | cons c t ih =>
    rw [List.cons_append, List.takeWhile_cons, List.takeWhile_cons, ih]

theorem cString_self {t : Text} (h : pxEos ∉ t) : (cString t).val = t := by
  refine List.takeWhile_eq_self_iff.mpr fun c hc => decide_eq_true fun heq => h (heq ▸ hc)

/-- A text is its string, or goes on with an end mark. -/
theorem cString_split (t : Text) :
    t = (cString t).val ∧ pxEos ∉ t ∨ ∃ u, t = (cString t).val ++ pxEos :: u := by
  by_cases hmem : pxEos ∈ t
  · right
    cases hdrop : t.dropWhile (· ≠ pxEos) with
    | nil =>
      rw [List.dropWhile_eq_nil_iff] at hdrop
      exact absurd rfl (of_decide_eq_true (hdrop _ hmem))
    | cons c u =>
      have hc : c = pxEos := by
        have hhead := List.head?_dropWhile_not (fun c => decide (c ≠ pxEos)) t
        rw [hdrop] at hhead
        simpa using hhead
      subst hc
      exact ⟨u, List.takeWhile_append_dropWhile.symm.trans (congrArg (_ ++ ·) hdrop)⟩
  · exact .inl ⟨(cString_self hmem).symm, hmem⟩

/-! ## The matches -/

/-- `__similarLen`. -/
def similarLen : Text → Text → ℕ
  | c :: t, d :: u => if c = d then similarLen t u + 1 else 0
  | _, _ => 0

/-- `numMatch`, `firstKeyword`, `minSimilarKeyword` and `minSimilar`. -/
structure KeywordMatch where
  numMatch : ℕ
  firstKeyword : Text
  minSimilarKeyword : Text
  minSimilar : ℕ

/-- A keyword, as `__tshellKeywordAdd` copies it. -/
abbrev Keyword := {t : Text // pxEos ∉ t ∧ t.length ≤ maxKeywordLen}

/-- A round of the loop of `__tshellKeywordMatch`. -/
def KeywordMatch.next (pcKeyword : Text) (m : KeywordMatch) (keyword : Keyword) : KeywordMatch :=
  if similarLen pcKeyword keyword.val = pcKeyword.length then
    if m.numMatch = 0 then ⟨1, keyword.val, keyword.val, keyword.val.length⟩
    else
      let tempSimilar := similarLen m.minSimilarKeyword keyword.val
      if tempSimilar < m.minSimilar then
        ⟨m.numMatch + 1, m.firstKeyword, keyword.val, tempSimilar⟩
      else { m with numMatch := m.numMatch + 1 }
  else m

/-- `uiMath`, `direntcMatch` (its name, and whether it is a directory) and `stMinSimilar`. -/
structure FileMatch where
  uiMath : ℕ
  direntcMatch : Text
  isDir : Bool
  stMinSimilar : ℕ

/-- `LW_CFG_PATH_MAX`. -/
def pathMax : ℕ := 512

/-- A file in a directory. The path to it is no longer than a path may be, so that there is room in
`d_name` for the mark of a directory. -/
structure Dirent where
  d_name : Text
  isDir : Bool
  plain : pxEos ∉ d_name
  short : d_name.length < pathMax

/-- A name as it is printed. -/
def printed (d_name : Text) (isDir : Bool) : Text := if isDir then d_name ++ ['/'] else d_name

/-- A round of the loop of `__tshellFileMatch`. When a second file is found, the first one is printed
too, and stays; later the last one is kept. -/
def FileMatch.next (pcFileName : Text) (m : FileMatch) (dirent : Dirent) : FileMatch :=
  if pcFileName.isPrefixOf dirent.d_name then
    let stMinSimilar := min m.stMinSimilar (similarLen m.direntcMatch dirent.d_name)
    match m.uiMath with
    | 0 => ⟨1, dirent.d_name, dirent.isDir, dirent.d_name.length⟩
    | 1 => ⟨2, printed m.direntcMatch m.isDir, false, stMinSimilar⟩
    | n => ⟨n + 1, printed dirent.d_name dirent.isDir, false, stMinSimilar⟩
  else m

/-- What the reader of lines finds around it: the variables, the keywords, the directories, and the
saved lines, the latest one first. -/
structure EditEnv where
  vars : ShellVars
  keywords : List Keyword
  readdir : Text → Option (List Dirent)
  saved : List CString

/-- The word that is completed: a keyword, or a file with what is in its directory. -/
inductive Word where
  | keyword (pcKeyword : Text)
  | file (pcFileName : Text) (dirents : List Dirent)

/-- The loop of `__tshellKeywordMatch`. -/
def keywordMatch (keywords : List Keyword) (pcKeyword : Text) : KeywordMatch :=
  keywords.foldl (KeywordMatch.next pcKeyword) ⟨0, [], [], 0⟩

/-- The loop of `__tshellFileMatch`. -/
def fileMatch (dirents : List Dirent) (pcFileName : Text) : FileMatch :=
  dirents.foldl (FileMatch.next pcFileName) ⟨0, [], false, 0⟩

/-- The directory and the file in a word. -/
def splitDir (pcDir : Text) : Text × Text :=
  let pcFileName := pcDir.rtakeWhile (· ≠ '/')
  if pcFileName.length = pcDir.length then (['.'], pcDir)
  else if pcFileName.length + 1 = pcDir.length then (['/'], pcFileName)
  else (pcDir.take (pcDir.length - pcFileName.length - 1), pcFileName)

/-- What `__tshellCharTab` completes for the string in the buffer, unless it does nothing or the
directory cannot be read. -/
def EditEnv.lastWord (env : EditEnv) (pcBuffer : Text) : Option Word :=
  let pcCmd := pcBuffer.dropWhile isWhite
  if pcCmd = [] ∨ pcCmd.head? = some '#' ∨ maxCommandLen - 1 < pcCmd.length then none
  else
    match strConvertVar env.vars pcCmd with
    | .error _ => none
    | .ok cCommandBuffer =>
      match Commands.paramList maxParamNum (strFormat false false false cCommandBuffer) with
      | [] => none
      | [pcDir] => some (.keyword pcDir)
      | _ :: params =>
        let (pcDir, pcFileName) := splitDir (params.getLastD [])
        (env.readdir pcDir).map (.file pcFileName)

/-- What all texts begin with. -/
def commonPrefix : List Text → Text
  | [] => []
  | t :: ts => ts.foldl (fun t u => t.take (similarLen t u)) t

/-- The keywords that begin with a word. -/
def matchingKeywords (keywords : List Keyword) (pcKeyword : Text) : List Text :=
  (keywords.map Subtype.val).filter pcKeyword.isPrefixOf

/-- The files that begin with a word. -/
def matchingFiles (dirents : List Dirent) (pcFileName : Text) : List Dirent :=
  dirents.filter fun dirent => pcFileName.isPrefixOf dirent.d_name

/-- What all matches go on with behind the word. A directory that is the only one also gets its
mark. -/
def Word.rest (keywords : List Keyword) : Word → Text
  | .keyword pcKeyword => (commonPrefix (matchingKeywords keywords pcKeyword)).drop pcKeyword.length
  | .file pcFileName dirents =>
    match matchingFiles dirents pcFileName with
    | [dirent] => (printed dirent.d_name dirent.isDir).drop pcFileName.length
    | dirents => (commonPrefix (dirents.map Dirent.d_name)).drop pcFileName.length

/-! ## The common part -/

theorem similarLen_le (t u : Text) : similarLen t u ≤ t.length ∧ similarLen t u ≤ u.length := by
  induction t generalizing u with
  | nil => exact ⟨Nat.zero_le _, Nat.zero_le _⟩
  | cons c t ih =>
    cases u with
    | nil => exact ⟨Nat.zero_le _, Nat.zero_le _⟩
    | cons d u =>
      rw [similarLen]
      split_ifs
      · exact ⟨Nat.succ_le_succ (ih u).1, Nat.succ_le_succ (ih u).2⟩
      · exact ⟨Nat.zero_le _, Nat.zero_le _⟩

theorem similarLen_eq_iff {t u : Text} : similarLen t u = t.length ↔ t.isPrefixOf u = true := by
  induction t generalizing u with
  | nil => exact iff_of_true (by cases u <;> rfl) (by cases u <;> rfl)
  | cons c t ih =>
    cases u with
    | nil => exact iff_of_false nofun nofun
    | cons d u =>
      rw [similarLen, List.length_cons, List.isPrefixOf_cons_cons]
      by_cases hcd : c = d
      · rw [if_pos hcd, Nat.succ_inj, ih]
        simp [hcd]
      · rw [if_neg hcd]
        exact iff_of_false nofun (by simp [hcd])

/-- The texts are the same as far as they are similar. -/
theorem take_similarLen {t u : Text} {n : ℕ} (hn : n ≤ similarLen t u) : t.take n = u.take n := by
  induction t generalizing u n with
  | nil =>
    rw [Nat.le_zero.mp hn]
    rfl
  | cons c t ih =>
    cases u with
    | nil =>
      rw [Nat.le_zero.mp hn]
      rfl
    | cons d u =>
      rw [similarLen] at hn
      cases n with
      | zero => rfl
      | succ n =>
        split_ifs at hn with hcd
        · rw [List.take_succ_cons, List.take_succ_cons, hcd, ih (Nat.le_of_succ_le_succ hn)]
        · omega

theorem similarLen_take (t u : Text) (n : ℕ) : similarLen (t.take n) u = min n (similarLen t u) := by
  induction t generalizing u n with
  | nil =>
    rw [List.take_nil]
    exact (Nat.min_zero n).symm
  | cons c t ih =>
    cases n with
    | zero => exact (Nat.zero_min _).symm
    | succ n =>
      cases u with
      | nil => exact (Nat.min_zero _).symm
      | cons d u =>
        rw [List.take_succ_cons, similarLen, similarLen]
        split_ifs
        · rw [ih]
          omega
        · rfl

theorem commonPrefix_append {ts : List Text} (hts : ts ≠ []) (u : Text) :
    commonPrefix (ts ++ [u]) = (commonPrefix ts).take (similarLen (commonPrefix ts) u) := by
  cases ts with
  | nil => exact absurd rfl hts
  | cons t ts => exact List.foldl_concat ..

theorem le_similarLen {p t u : Text} (ht : p <+: t) (hu : p <+: u) : p.length ≤ similarLen t u := by
  induction p generalizing t u with
  | nil => exact Nat.zero_le _
  | cons c p ih =>
    obtain ⟨t, rfl⟩ := ht
    obtain ⟨u, rfl⟩ := hu
    rw [List.cons_append, List.cons_append, similarLen, if_pos rfl]
    exact Nat.succ_le_succ (ih (List.prefix_append ..) (List.prefix_append ..))

/-- All texts begin with it. -/
theorem commonPrefix_of_mem {ts : List Text} {t : Text} (ht : t ∈ ts) : commonPrefix ts <+: t := by
  induction ts using List.reverseRecOn with
  | nil => cases ht
  | append_singleton ts u ih =>
    by_cases hts : ts = []
    · subst hts
      rw [List.mem_singleton.mp ht]
      exact List.prefix_refl u
    · rw [commonPrefix_append hts]
      rcases List.mem_append.mp ht with ht | ht
      · refine List.IsPrefix.trans ?_ (ih ht)
        exact List.take_prefix ..
      · rw [List.mem_singleton.mp ht, take_similarLen le_rfl]
        exact List.take_prefix ..

/-- It is the longest such text. -/
theorem prefix_commonPrefix {ts : List Text} {p : Text} (hts : ts ≠ []) (hp : ∀ t ∈ ts, p <+: t) :
    p <+: commonPrefix ts := by
  induction ts using List.reverseRecOn with
  | nil => exact absurd rfl hts
  | append_singleton ts u ih =>
    have hu : p <+: u := hp u (List.mem_append_right _ List.mem_cons_self)
    by_cases hts : ts = []
    · subst hts
      exact hu
    · have hcommon := ih hts fun t ht => hp t (List.mem_append_left _ ht)
      rw [commonPrefix_append hts, List.prefix_take_iff]
      exact ⟨hcommon, le_similarLen hcommon hu⟩

theorem commonPrefix_plain {ts : List Text} (hts : ∀ t ∈ ts, pxEos ∉ t) : pxEos ∉ commonPrefix ts := by
  cases ts with
  | nil => exact List.not_mem_nil
  | cons t ts =>
    exact fun hmem => hts t List.mem_cons_self ((commonPrefix_of_mem List.mem_cons_self).subset hmem)

theorem matchingKeywords_spec {keywords : List Keyword} {pcKeyword t : Text}
    (ht : t ∈ matchingKeywords keywords pcKeyword) : pcKeyword <+: t ∧ pxEos ∉ t := by
  obtain ⟨hmem, hprefix⟩ := List.mem_filter.mp ht
  obtain ⟨keyword, -, rfl⟩ := List.mem_map.mp hmem
  exact ⟨List.isPrefixOf_iff_prefix.mp hprefix, keyword.2.1⟩

/-! ## What the loops find -/

/-- What the loop keeps for the keywords that have matched. -/
structure KeywordMatch.Spec (ks : List Text) (m : KeywordMatch) : Prop where
  numMatch : m.numMatch = ks.length
  first : m.firstKeyword = ks.headD []
  le : m.minSimilar ≤ m.minSimilarKeyword.length
  short : m.minSimilarKeyword.length ≤ maxKeywordLen
  common : m.minSimilarKeyword.take m.minSimilar = commonPrefix ks

theorem KeywordMatch.Spec.next {pcKeyword : Text} {ks : List Text} {m : KeywordMatch} (h : m.Spec ks)
    (keyword : Keyword) :
    (m.next pcKeyword keyword).Spec (ks ++ [keyword.val].filter pcKeyword.isPrefixOf) := by
  unfold KeywordMatch.next
  by_cases hprefix : pcKeyword.isPrefixOf keyword.val = true
  · rw [if_pos (similarLen_eq_iff.mpr hprefix), List.filter_cons_of_pos hprefix, List.filter_nil]
    by_cases hzero : m.numMatch = 0
    · obtain rfl : ks = [] := List.length_eq_zero_iff.mp (h.numMatch.symm.trans hzero)
      rw [if_pos hzero]
      exact ⟨rfl, rfl, le_rfl, keyword.2.2, List.take_length⟩
    · have hks : ks ≠ [] := fun hnil => hzero (by rw [h.numMatch, hnil]; rfl)
      have hlen : m.numMatch + 1 = (ks ++ [keyword.val]).length := by
        rw [List.length_append, h.numMatch]
        rfl
      have hfirst : m.firstKeyword = (ks ++ [keyword.val]).headD [] := by
        rw [h.first]
        cases ks with
        | nil => exact absurd rfl hks
        | cons k ks => rfl
      have hcommon : commonPrefix (ks ++ [keyword.val]) = m.minSimilarKeyword.take
          (min m.minSimilar (similarLen m.minSimilarKeyword keyword.val)) := by
        rw [commonPrefix_append hks, ← h.common, similarLen_take, List.take_take]
        congr 1
        omega
      rw [if_neg hzero]
      dsimp only
      split_ifs with hless
      · refine ⟨hlen, hfirst, (similarLen_le ..).2, keyword.2.2, ?_⟩
        rw [hcommon, Nat.min_eq_right (Nat.le_of_lt hless), take_similarLen le_rfl]
      · refine ⟨hlen, hfirst, h.le, h.short, ?_⟩
        rw [hcommon, Nat.min_eq_left (Nat.le_of_not_lt hless)]
  · rw [if_neg fun heq => hprefix (similarLen_eq_iff.mp heq), List.filter_cons_of_neg hprefix,
      List.filter_nil, List.append_nil]
    exact h

theorem keywordMatch_spec (keywords : List Keyword) (pcKeyword : Text) :
    (keywordMatch keywords pcKeyword).Spec (matchingKeywords keywords pcKeyword) := by
  induction keywords using List.reverseRecOn with
  | nil => exact ⟨rfl, rfl, le_rfl, Nat.zero_le _, rfl⟩
  | append_singleton keywords keyword ih =>
    unfold keywordMatch matchingKeywords
    rw [List.foldl_concat, List.map_append, List.filter_append]
    exact ih.next keyword

theorem printed_plain {t : Text} (h : pxEos ∉ t) (isDir : Bool) : pxEos ∉ printed t isDir := by
  cases isDir with
  | false => exact h
  | true =>
    refine fun hmem => (List.mem_append.mp hmem).elim h fun hslash => ?_
    exact absurd (List.mem_singleton.mp hslash) (by decide)

theorem prefix_printed (t : Text) (isDir : Bool) : t <+: printed t isDir := by
  cases isDir with
  | false => exact List.prefix_refl t
  | true => exact List.prefix_append t _

theorem take_printed (t : Text) (isDir : Bool) {n : ℕ} (hn : n ≤ t.length) :
    (printed t isDir).take n = t.take n := by
  obtain ⟨r, hr⟩ := prefix_printed t isDir
  rw [← hr, List.take_append_of_le_length hn]

/-- What the loop keeps for the files that have matched. -/
structure FileMatch.Spec (ds : List Dirent) (m : FileMatch) : Prop where
  uiMath : m.uiMath = ds.length
  single : ∀ d, ds = [d] → m.direntcMatch = d.d_name ∧ m.isDir = d.isDir
  le : m.stMinSimilar ≤ m.direntcMatch.length
  common : m.direntcMatch.take m.stMinSimilar = commonPrefix (ds.map Dirent.d_name)

theorem FileMatch.Spec.next {pcFileName : Text} {ds : List Dirent} {m : FileMatch} (h : m.Spec ds)
    (dirent : Dirent) : (m.next pcFileName dirent).Spec
      (ds ++ [dirent].filter fun dirent => pcFileName.isPrefixOf dirent.d_name) := by
  unfold FileMatch.next
  by_cases hprefix : pcFileName.isPrefixOf dirent.d_name = true
  · have hfilter : [dirent].filter (fun dirent => pcFileName.isPrefixOf dirent.d_name) = [dirent] :=
      List.filter_cons_of_pos hprefix
    rw [if_pos hprefix, hfilter]
    have hmath := h.uiMath
    have hcommon (hds : ds ≠ []) : commonPrefix ((ds ++ [dirent]).map Dirent.d_name) =
        m.direntcMatch.take (min m.stMinSimilar (similarLen m.direntcMatch dirent.d_name)) := by
      rw [List.map_append, List.map_singleton, commonPrefix_append (by simpa using hds), ← h.common,
        similarLen_take, List.take_take]
      congr 1
      omega
    have hle := similarLen_le m.direntcMatch dirent.d_name
    match ds with
    | [] =>
      rw [show m.uiMath = 0 from hmath]
      refine ⟨rfl, ?_, le_rfl, List.take_length⟩
      rintro d hd
      cases hd
      exact ⟨rfl, rfl⟩
    | [d] =>
      rw [show m.uiMath = 1 from hmath]
      have hmin := Nat.min_le_left m.stMinSimilar (similarLen m.direntcMatch dirent.d_name)
      refine ⟨rfl, nofun, ?_, ?_⟩
      · exact (hmin.trans h.le).trans (prefix_printed ..).length_le
      · rw [hcommon nofun]
        exact take_printed _ _ (hmin.trans h.le)
    | d :: e :: ds =>
      rw [show m.uiMath = ds.length + 2 from hmath]
      have hmin := Nat.min_le_right m.stMinSimilar (similarLen m.direntcMatch dirent.d_name)
      refine ⟨?_, ?_, ?_, ?_⟩
      · change ds.length + 2 + 1 = _
        simp
      · rintro d' hd
        simp at hd
      · exact (hmin.trans hle.2).trans (prefix_printed ..).length_le
      · rw [hcommon nofun]
        exact (take_printed _ _ (hmin.trans hle.2)).trans (take_similarLen hmin).symm
  · have hfilter : [dirent].filter (fun dirent => pcFileName.isPrefixOf dirent.d_name) = [] :=
      List.filter_cons_of_neg hprefix
    rw [if_neg hprefix, hfilter, List.append_nil]
    exact h

theorem fileMatch_spec (dirents : List Dirent) (pcFileName : Text) :
    (fileMatch dirents pcFileName).Spec (matchingFiles dirents pcFileName) := by
  induction dirents using List.reverseRecOn with
  | nil => exact ⟨rfl, nofun, le_rfl, rfl⟩
  | append_singleton dirents dirent ih =>
    unfold fileMatch matchingFiles
    rw [List.foldl_concat, List.filter_append]
    exact ih.next dirent

end SylixOS.Shell
