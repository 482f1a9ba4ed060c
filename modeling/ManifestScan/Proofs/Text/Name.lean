import ManifestScan.Proofs.Text.Lines
import ManifestScan.Text.Name

namespace ManifestScan

theorem isNameByte_apart : ∀ b, isNameByte b = true → isSpace b = false ∧ isBlank b = false := by
  decide +kernel

theorem all_isNameByte {text : Bytes} (h : isIdentifier text = true) :
    text.all isNameByte = true := by
  cases text with
  | nil => cases h
  | cons b text =>
    simp only [isIdentifier, Bool.and_eq_true] at h
    exact h.2

theorem notMem_of_isIdentifier {name : Bytes} (h : isIdentifier name = true) {b : UInt8}
    (hb : isNameByte b = false) : b ∉ name := by
  intro hm
  rw [List.all_eq_true.1 (all_isNameByte h) b hm] at hb
  cases hb

theorem isTrimmed_of_isIdentifier {name : Bytes} (h : isIdentifier name = true) :
    IsTrimmed name := by
  refine isTrimmed_of_notBlank ?_ fun b hm =>
    (isNameByte_apart b (List.all_eq_true.1 (all_isNameByte h) b hm)).2
  rintro rfl
  cases h

theorem trim_name {text : Bytes} (h : text.all isNameByte = true) : trim text = text := by
  have hb : ∀ b ∈ text, isBlank b = false :=
    fun b hm => (isNameByte_apart b (List.all_eq_true.1 h b hm)).2
  exact trim_of_ends (fun b hf => hb b (List.mem_of_mem_head? hf))
    fun b hl => hb b (List.mem_of_getLast? hl)

end ManifestScan
