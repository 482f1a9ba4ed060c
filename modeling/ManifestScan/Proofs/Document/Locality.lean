import ManifestScan.Proofs.Document.Reader
import Mathlib.Data.List.Basic

namespace ManifestScan.Document

/-- Whether a number or a word that stands in front of the text ends there. -/
def endsWord : Bytes → Bool
  | [] => true
  | b :: _ => isDelimiter b

theorem takeWhile_append_of_endsWord (text : Bytes) {rest : Bytes} (hr : endsWord rest = true) :
    (text ++ rest).takeWhile (!isDelimiter ·) = text.takeWhile (!isDelimiter ·) := by
  induction text with
  | nil =>
    cases rest with
    | nil => rfl
    | cons b rest =>
      have hb : isDelimiter b = true := hr
      simp [hb]
  | cons b text ih => simp [List.takeWhile_cons, ih]

theorem dropWhile_append_of_endsWord (text : Bytes) {rest : Bytes} (hr : endsWord rest = true) :
    (text ++ rest).dropWhile (!isDelimiter ·) = text.dropWhile (!isDelimiter ·) ++ rest := by
  induction text with
  | nil =>
    cases rest with
    | nil => rfl
    | cons b rest =>
      have hb : isDelimiter b = true := hr
      simp [hb]
  | cons b text ih =>
    by_cases hb : isDelimiter b = true
    · simp [hb]
    · simp [hb, ih]

theorem parts?_quote (rest : Bytes) : parts? (doubleQuote :: rest) = some ([], rest) := by
  rw [parts?.eq_def]
  simp

theorem parts?_control {b : UInt8} (hb : b < 0x20) (rest : Bytes) : parts? (b :: rest) = none := by
  have hq : b ≠ doubleQuote := by
    rintro rfl
    revert hb
    decide
  rw [parts?.eq_def]
  simp [hq, hb]

theorem parts?_byte {b : UInt8} (hq : b ≠ doubleQuote) (hc : ¬b < 0x20) (he : b ≠ backslash)
    (rest : Bytes) : parts? (b :: rest) = (parts? rest).map (withPart (.byte b)) := by
  rw [parts?.eq_def]
  simp [hq, hc, he]

theorem parts?_escape {b c : UInt8} (h : escaped? c = some b) (rest : Bytes) :
    parts? (backslash :: c :: rest) = (parts? rest).map (withPart (.byte b)) := by
  have hu : c ≠ 0x75 := by
    rintro rfl
    cases h
  rw [parts?.eq_def]
  dsimp only
  rw [if_neg (by decide), if_neg (by decide), if_pos rfl]
  simp [hu, h]

theorem parts?_unit {d e f g : UInt8} {n : Nat} (h : unitOf? [d, e, f, g] = some n) (rest : Bytes) :
    parts? (backslash :: 0x75 :: d :: e :: f :: g :: rest) =
      (parts? rest).map (withPart (.unit n)) := by
  rw [parts?.eq_def]
  dsimp only
  rw [if_neg (by decide), if_neg (by decide), if_pos rfl]
  simp [h]

theorem parts?_append {text rest : Bytes} {parts : List Part} (more : Bytes)
    (h : parts? text = some (parts, rest)) :
    parts? (text ++ more) = some (parts, rest ++ more) := by
  fun_induction parts? text generalizing parts rest with
  | case1 => cases h
  | case2 text =>
    cases h
    exact parts?_quote _
  | case3 => cases h
  | case4 => cases h
  | case5 d e f g text hq hc ih =>
    simp only [Option.bind_eq_some_iff, Option.map_eq_some_iff] at h
    obtain ⟨n, hn, ⟨found, last⟩, hf, hw⟩ := h
    cases hw
    simp only [List.cons_append, parts?_unit hn, ih hf]
    rfl
  | case6 c text hu hq hc ih =>
    simp only [Option.bind_eq_some_iff, Option.map_eq_some_iff] at h
    obtain ⟨n, hn, ⟨found, last⟩, hf, hw⟩ := h
    cases hw
    simp only [List.cons_append, parts?_escape hn, ih hf]
    rfl
  | case7 b text hq hc he ih =>
    simp only [Option.map_eq_some_iff] at h
    obtain ⟨⟨found, last⟩, hf, hw⟩ := h
    cases hw
    simp only [List.cons_append, parts?_byte hq hc he, ih hf]
    rfl

theorem token?_append {b : UInt8} {text rest more : Bytes} {token : Token}
    (h : token? b text = some (token, rest)) (hm : endsWord more = true) :
    token? b (text ++ more) = some (token, rest ++ more) := by
  unfold token? at h ⊢
  split at h
  · cases h
    rfl
  · split at h
    · rename_i hb
      obtain ⟨⟨parts, last⟩, hp, hw⟩ := Option.map_eq_some_iff.1 h
      cases hw
      rw [if_pos hb, parts?_append more hp]
      rfl
    · rename_i hb
      obtain ⟨value, hv, hw⟩ := Option.map_eq_some_iff.1 h
      cases hw
      rw [if_neg hb, takeWhile_append_of_endsWord text hm, dropWhile_append_of_endsWord text hm, hv]
      rfl

theorem run_gap {b : UInt8} (hb : isGap b = true) (state : State) (rest : Bytes) :
    run state (b :: rest) = run state rest := by
  rw [run, if_pos hb]

theorem run_token {b : UInt8} (hb : isGap b = false) (state : State) (rest : Bytes) :
    run state (b :: rest) =
      (token? b rest).bind fun (token, others) =>
        (step state token).bind fun state => run state others := by
  rw [run, if_neg (by simp [hb])]
  split <;> simp_all

/-- The state of a reader that has read a part of a larger document in the same way. -/
def within (outer : List Frame) : State → State
  | .value frames => .value (frames ++ outer)
  | .key before frames => .key before (frames ++ outer)
  | .colon before name frames => .colon before name (frames ++ outer)
  | .elements before frames => .elements before (frames ++ outer)
  | .members before frames => .members before (frames ++ outer)
  | .done value => finish value outer

theorem within_finish (value : Document) (frames outer : List Frame) :
    within outer (finish value frames) = finish value (frames ++ outer) := by
  cases frames with
  | nil => rfl
  | cons frame frames => cases frame <;> rfl

theorem step_within {state next : State} {token : Token} (outer : List Frame)
    (h : step state token = some next) :
    step (within outer state) token = some (within outer next) := by
  unfold step at h
  split at h <;> cases h
  all_goals first | rfl | exact congrArg some (within_finish _ _ _).symm

/-- A document is read in the same way inside another one. -/
theorem run_within {state : State} {text : Bytes} {value : Document}
    (h : run state text = some value)
    (outer : List Frame) {rest : Bytes} (hr : endsWord rest = true) :
    run (within outer state) (text ++ rest) = run (finish value outer) rest := by
  fun_induction run state text with
  | case1 state => cases h; rfl
  | case2 => simp_all
  | case3 state b text hb ih =>
    rw [List.cons_append, run_gap hb]
    exact ih h
  | case4 => cases h
  | case5 state b text hb token others ht ih =>
    obtain ⟨next, hs, hn⟩ := Option.bind_eq_some_iff.1 h
    rw [List.cons_append, run_token (by simpa using hb), token?_append ht hr]
    dsimp only [Option.bind]
    rw [step_within outer hs]
    exact ih next hn

end ManifestScan.Document
