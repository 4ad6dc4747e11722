import Libsax.Text.StrCopy

/-! `g_path_to_url` and `g_url_to_path`: paths as `file://` URLs. A path with a
colon in it is taken for one with a drive, which gets a slash of its own. -/
namespace Libsax.Text.FileUrl

open Libsax.Lib StrCopy

def slash : UInt8 := 47
def colon : UInt8 := 58
def backslash : UInt8 := 92

def scheme : CString := ⟨[102, 105, 108, 101, colon, slash, slash], by simp [colon, slash]⟩

def oneSlash : CString := ⟨[slash], by simp [slash]⟩

def fullSize : Nat := 512

/-- The string in a buffer; `none` is one that goes on behind it. -/
def cString (memory : Memory) (size : Nat) : Option CString :=
  if (memory.string size 0).length < size then
    some ⟨memory.string size 0, memory.string_ne_zero size 0⟩
  else none

/-- `g_full_path`; `cwd` is what `getcwd` stores, if there is room for it. -/
def gFullPath (cwd : Option CString) (rel : CString) (full : Memory) (size : Int) :
    Memory × Bool :=
  if rel.chars.head? = some slash then ((gStrlcpy full rel size).1, true)
  else
    match cwd with
    | none => (full, false)
    | some dir =>
      let full := full.putAll 0 (dir.chars ++ [0])
      let full := (gStrlcat full oneSlash size).1
      ((gStrlcat full rel size).1, true)

/-- `do_escape_slash`; `none` is a string that goes on behind its buffer. -/
def doEscapeSlash : Nat → Nat → Memory → Option Memory
  | 0, _, _ => none
  | limit + 1, i, str =>
    if str i = 0 then some str
    else if str i = backslash then doEscapeSlash limit (i + 1) (Function.update str i slash)
    else doEscapeSlash limit (i + 1) str

/-- `!strchr(full, ':') || g_strlcat(url, "/", size)` -/
def addSlash (text : CString) (url : Memory) (size : Int) : Memory × Int :=
  if colon ∈ text.chars then gStrlcat url oneSlash size else (url, 1)

/-- `g_path_to_url`, with what the local buffer happens to hold. -/
def gPathToUrl (cwd : Option CString) (full : Memory) (path : CString) (url : Memory)
    (size : Nat) : Option (Memory × Bool) := do
  let (full, found) := gFullPath cwd path full fullSize
  if !found then return (url, false)
  let (url, copied) := gStrlcpy url scheme size
  if copied = 0 then return (url, false)
  let text ← cString full fullSize
  let (url, added) := addSlash text url size
  if added = 0 then return (url, false)
  let (url, appended) := gStrlcat url text size
  if appended = 0 then return (url, false)
  let url ← doEscapeSlash size 0 url
  return (url, true)

/-- `charmap`, which folds the letters of both halves of the table. -/
def charmap (u : UInt8) : Int :=
  let folded := if 0o101 ≤ u ∧ u ≤ 0o132 ∨ 0o301 ≤ u ∧ u ≤ 0o332 then u + 32 else u
  folded.toInt8.toInt

/-- `g_strnicmp`; behind the last character there is a zero. -/
def gStrnicmp : List UInt8 → List UInt8 → Nat → Int
  | _, _, 0 => 0
  | s1, s2, n + 1 =>
    let u1 := s1.headD 0
    let u2 := s2.headD 0
    if charmap u1 ≠ charmap u2 then charmap u1 - charmap u2
    else if u1 = 0 then 0
    else gStrnicmp s1.tail s2.tail n

/-- A pointer into a string, `n` characters on. -/
def «from» (s : CString) (n : Nat) : CString :=
  ⟨s.chars.drop n, fun char hchar => s.chars_ne_zero char (List.mem_of_mem_drop hchar)⟩

/-- `strchr`, for a character other than zero. -/
def strchr (s : CString) (c : UInt8) : Option CString :=
  if c ∈ s.chars then some («from» s (s.chars.idxOf c)) else none

/-- `g_url_to_path` -/
def gUrlToPath (url : CString) (path : Memory) (size : Int) : Memory × Int :=
  if gStrnicmp url.chars scheme.chars 7 = 0 then
    let p := «from» url 7
    match if p.chars.head? ≠ some slash then strchr p slash else some p with
    | none => (path, 0)
    | some p =>
      let p := if (strchr p colon).isSome then «from» p 1 else p
      gStrlcpy path p size
  else (path, 0)

variable {memory : Memory} {size : Nat} {text front : List UInt8}

private theorem cString_of_at (hat : memory.At 0 (text ++ [0])) (htext : ∀ char ∈ text, char ≠ 0)
    (hfits : text.length < size) : cString memory size = some ⟨text, htext⟩ := by
  have hstring := Memory.string_of_at hat htext hfits
  unfold cString
  simp only [hstring, if_pos hfits]

private theorem gStrlcpy_at (memory : Memory) (src : CString) (hfits : src.chars.length < size) :
    (gStrlcpy memory src size).1.At 0 (src.chars ++ [0]) ∧
      (gStrlcpy memory src size).2 = toInt32 src.chars.length := by
  rw [gStrlcpy_eq memory src (Nat.zero_lt_of_lt hfits), List.take_of_length_le (by omega)]
  dsimp only
  exact ⟨Memory.at_putAll _ _ _, rfl⟩

private theorem gStrlcat_at (hat : memory.At 0 (front ++ [0])) (hfront : ∀ char ∈ front, char ≠ 0)
    (src : CString) (hfits : front.length + src.chars.length < size) :
    (gStrlcat memory src size).1.At 0 (front ++ src.chars ++ [0]) ∧
      (gStrlcat memory src size).2 = toInt32 (front.length + src.chars.length) := by
  have hinitial : initial memory size = front :=
    Memory.string_of_at hat hfront (by omega)
  rw [gStrlcat_eq memory src (by rw [hinitial]; omega), hinitial,
    List.take_of_length_le (by omega)]
  dsimp only
  refine ⟨?_, rfl⟩
  rw [List.append_assoc, Memory.at_append]
  constructor
  · apply Memory.at_congr _ (Memory.at_append.mp hat).1
    intro i _ hlt
    rw [Memory.putAll_of_lt (by omega)]
  · rw [Nat.zero_add]
    exact Memory.at_putAll _ _ _

private theorem doEscapeSlash_eq {limit i : Nat} (hat : memory.At i (text ++ [0]))
    (htext : ∀ char ∈ text, char ≠ 0) (hback : backslash ∉ text) (hfits : text.length < limit) :
    doEscapeSlash limit i memory = some memory := by
  induction text generalizing limit i with
  | nil =>
    obtain ⟨limit, rfl⟩ := Nat.exists_eq_add_one.mpr hfits
    rw [doEscapeSlash, if_pos hat.1]
  | cons char rest ih =>
    obtain ⟨limit, rfl⟩ := Nat.exists_eq_add_one.mpr (Nat.zero_lt_of_lt hfits)
    have hchar : memory i = char := hat.1
    have hne : char ≠ backslash := fun hsame => hback (by simp [hsame])
    rw [doEscapeSlash, hchar, if_neg (htext char (by simp)), if_neg hne]
    apply ih hat.2
    · intro other hother
      exact htext other (by simp [hother])
    · intro hmem
      exact hback (by simp [hmem])
    · simpa using hfits

/-- What is in front of a path in its URL. -/
def urlPrefix (path : CString) : List UInt8 :=
  scheme.chars ++ if colon ∈ path.chars then oneSlash.chars else []

private theorem urlPrefix_ne_zero (path : CString) : ∀ char ∈ urlPrefix path, char ≠ 0 := by
  intro char hchar
  rcases List.mem_append.mp hchar with hscheme | hslash
  · exact scheme.chars_ne_zero char hscheme
  · split_ifs at hslash
    · exact oneSlash.chars_ne_zero char hslash
    · simp at hslash

/-- The URL of a path, as a string. -/
def urlOf (path : CString) : CString where
  chars := urlPrefix path ++ path.chars
  chars_ne_zero := by
    intro char hchar
    rcases List.mem_append.mp hchar with hfront | hpath
    · exact urlPrefix_ne_zero path char hfront
    · exact path.chars_ne_zero char hpath

variable {path : CString}

private theorem toInt32_ne_zero {n : Nat} (hpos : 0 < n) (hlt : n < 2 ^ 31) : toInt32 n ≠ 0 := by
  rw [toInt32_of_lt hlt]
  omega

private theorem addSlash_at (hat : memory.At 0 (scheme.chars ++ [0]))
    (hsize : (urlPrefix path).length < size) :
    (addSlash path memory size).1.At 0 (urlPrefix path ++ [0]) ∧
      (addSlash path memory size).2 ≠ 0 := by
  unfold urlPrefix at hsize ⊢
  unfold addSlash
  by_cases hcolon : colon ∈ path.chars
  · rw [if_pos hcolon, List.length_append] at hsize
    obtain ⟨hslashAt, hadded⟩ := gStrlcat_at hat scheme.chars_ne_zero oneSlash hsize
    rw [if_pos hcolon, if_pos hcolon, hadded]
    exact ⟨hslashAt, by decide⟩
  · rw [if_neg hcolon, if_neg hcolon, List.append_nil]
    exact ⟨hat, by simp⟩

private theorem gPathToUrl_eq (cwd : Option CString) (full url : Memory)
    (habsolute : path.chars.head? = some slash) (hback : backslash ∉ path.chars)
    (hfull : path.chars.length < fullSize) (hsize : (urlOf path).chars.length < size) :
    ∃ url', gPathToUrl cwd full path url size = some (url', true) ∧
      cString url' size = some (urlOf path) := by
  have hlength : (urlOf path).chars.length = (urlPrefix path).length + path.chars.length :=
    List.length_append
  have hscheme : scheme.chars.length ≤ (urlPrefix path).length := by simp [urlPrefix]
  have hprefix : (urlPrefix path).length ≤ 8 := by
    unfold urlPrefix
    split_ifs <;> decide
  have hpos : 0 < path.chars.length := by
    cases hchars : path.chars with
    | nil => simp [hchars] at habsolute
    | cons char rest => simp
  -- the path comes into the local buffer as it is
  obtain ⟨hfullAt, -⟩ := gStrlcpy_at full path hfull
  have htext := cString_of_at hfullAt path.chars_ne_zero hfull
  -- the scheme, the slash of its own and the path follow each other
  obtain ⟨hschemeAt, hcopied⟩ := @gStrlcpy_at size url scheme (by omega)
  generalize hcopy : gStrlcpy url scheme size = copy at hschemeAt hcopied
  obtain ⟨hslashAt, hadded⟩ :=
    @addSlash_at copy.1 size path hschemeAt (show (urlPrefix path).length < size by omega)
  generalize hstep : addSlash path copy.1 size = step at hslashAt hadded
  obtain ⟨hurlAt, happended⟩ := gStrlcat_at hslashAt (urlPrefix_ne_zero path) path
    (show (urlPrefix path).length + path.chars.length < size by omega)
  have hescaped : doEscapeSlash size 0 (gStrlcat step.1 path size).1 =
      some (gStrlcat step.1 path size).1 := by
    apply doEscapeSlash_eq hurlAt (urlOf path).chars_ne_zero _ hsize
    intro hmem
    rcases List.mem_append.mp hmem with hfront | hpath
    · unfold urlPrefix at hfront
      split_ifs at hfront <;> revert hfront <;> decide
    · exact hback hpath
  refine ⟨(gStrlcat step.1 path size).1, ?_, cString_of_at hurlAt (urlOf path).chars_ne_zero hsize⟩
  unfold gPathToUrl gFullPath
  have hcopied' : copy.2 ≠ 0 := by
    rw [hcopied]
    decide
  have happended' : (gStrlcat step.1 path size).2 ≠ 0 := by
    rw [happended]
    exact toInt32_ne_zero (by omega) (show _ < 2 ^ 31 by unfold fullSize at hfull; omega)
  simp [habsolute, hcopy, hcopied', htext, hstep, hadded, happended', hescaped]

private theorem cString_ext {s other : CString} (hchars : s.chars = other.chars) : s = other := by
  cases s
  cases other
  simpa using hchars

private theorem gStrnicmp_append (hfront : ∀ char ∈ front, char ≠ 0) (rest : List UInt8) :
    gStrnicmp (front ++ rest) front front.length = 0 := by
  induction front with
  | nil => rfl
  | cons char front ih =>
    have hrest := ih fun other hother => hfront other (by simp [hother])
    rw [List.length_cons, List.cons_append, gStrnicmp]
    simp [hfront char (by simp), hrest]

private theorem gUrlToPath_urlOf (habsolute : path.chars.head? = some slash) (out : Memory)
    (size : Int) :
    gUrlToPath (urlOf path) out size = gStrlcpy out path size := by
  have hscheme : gStrnicmp (urlOf path).chars scheme.chars 7 = 0 := by
    have happend : (urlOf path).chars =
        scheme.chars ++ ((if colon ∈ path.chars then oneSlash.chars else []) ++ path.chars) := by
      simp [urlOf, urlPrefix]
    rw [happend]
    exact gStrnicmp_append scheme.chars_ne_zero _
  unfold gUrlToPath
  rw [if_pos hscheme]
  by_cases hcolon : colon ∈ path.chars
  · have hfrom : («from» (urlOf path) 7).chars = slash :: path.chars := by
      simp [«from», urlOf, urlPrefix, hcolon, scheme, oneSlash]
    have hpath : «from» («from» (urlOf path) 7) 1 = path := by
      apply cString_ext
      have hdrop : («from» («from» (urlOf path) 7) 1).chars =
          («from» (urlOf path) 7).chars.drop 1 := rfl
      rw [hdrop, hfrom]
      rfl
    have hfound : (strchr («from» (urlOf path) 7) colon).isSome = true := by
      unfold strchr
      rw [hfrom, if_pos (by simp [hcolon])]
      rfl
    dsimp only
    rw [hfrom, if_neg (by simp)]
    dsimp only
    rw [if_pos hfound, hpath]
  · have hfrom : «from» (urlOf path) 7 = path := by
      apply cString_ext
      simp [«from», urlOf, urlPrefix, hcolon, scheme]
    have hnone : strchr path colon = none := if_neg hcolon
    dsimp only
    rw [hfrom, if_neg (by simp [habsolute])]
    dsimp only
    rw [hnone, if_neg (by simp)]

/-- A path comes back from its URL. -/
theorem gUrlToPath_gPathToUrl (cwd : Option CString) (path : CString) (full url out : Memory)
    (urlSize size : Nat) (habsolute : path.chars.head? = some slash)
    (hback : backslash ∉ path.chars) (hfull : path.chars.length < fullSize)
    (hurl : (urlPrefix path).length + path.chars.length < urlSize)
    (hsize : path.chars.length < size) :
    ∃ url' text, gPathToUrl cwd full path url urlSize = some (url', true) ∧
      cString url' urlSize = some text ∧ (gUrlToPath text out size).2 = path.chars.length ∧
      (gUrlToPath text out size).1.Holds size path.chars := by
  have hlength : (urlOf path).chars.length < urlSize := by
    rw [urlOf, List.length_append]
    exact hurl
  obtain ⟨url', hencoded, htext⟩ := gPathToUrl_eq cwd full url habsolute hback hfull hlength
  obtain ⟨hat, hresult⟩ := gStrlcpy_at out path hsize
  refine ⟨url', urlOf path, hencoded, htext, ?_, ?_⟩
  · rw [gUrlToPath_urlOf habsolute, hresult]
    apply toInt32_of_lt
    unfold fullSize at hfull
    omega
  · rw [gUrlToPath_urlOf habsolute]
    exact ⟨hsize, Memory.string_of_at hat path.chars_ne_zero hsize⟩

/-- `"//a:"`, with two slashes and a colon. -/
theorem gUrlToPath_gPathToUrl_colon :
    let path : CString := ⟨[slash, slash, 97, colon], by simp [slash, colon]⟩
    ∃ url' text, gPathToUrl none (fun _ => 1) path (fun _ => 2) 20 = some (url', true) ∧
      cString url' 20 = some text ∧
      (gUrlToPath text (fun _ => 3) (8 : Nat)).2 = path.chars.length ∧
      (gUrlToPath text (fun _ => 3) (8 : Nat)).1.Holds 8 path.chars := by
  intro path
  exact gUrlToPath_gPathToUrl none path (fun _ => 1) (fun _ => 2) (fun _ => 3) 20 8 rfl (by decide)
    (by decide) (by decide) (by decide)

end Libsax.Text.FileUrl
