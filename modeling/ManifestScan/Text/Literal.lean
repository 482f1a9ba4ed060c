import ManifestScan.Text.Basic

namespace ManifestScan.Literal

def isQuote (b : UInt8) : Bool := b == doubleQuote || b == singleQuote

/-- What follows the first `quote` outside an escape, if no line break comes before it. -/
def afterPlain? (quote : UInt8) : Bytes → Option Bytes
  | [] => none
  | b :: rest =>
    if b = backslash then
      match rest with
      | [] => none
      | _ :: escaped => afterPlain? quote escaped
    else if b = quote then some rest
    else if b = lineFeed then none
    else afterPlain? quote rest

/-- What follows the first three `quote` bytes in a row outside an escape. -/
def afterTriple? (quote : UInt8) : Bytes → Option Bytes
  | [] => none
  | b :: rest =>
    if b = backslash then
      match rest with
      | [] => none
      | _ :: escaped => afterTriple? quote escaped
    else if b = quote ∧ startsWith [quote, quote] rest then some (rest.drop 2)
    else afterTriple? quote rest

/-- What follows the literal that starts the text; its first byte is taken as the quote. Nothing
when the literal has no end. -/
def after? : Bytes → Option Bytes
  | [] => none
  | quote :: rest =>
    match afterWord? [quote, quote] rest with
    | some body => afterTriple? quote body
    | none => afterPlain? quote rest

theorem afterPlain?_suffix {quote : UInt8} {text rest : Bytes}
    (h : afterPlain? quote text = some rest) : rest <:+ text := by
  fun_induction afterPlain? quote text with
  | case1 => cases h
  | case2 => cases h
  | case3 b c ih => exact ((ih h).trans (List.suffix_cons ..)).trans (List.suffix_cons ..)
  | case4 b rest' => cases h; exact List.suffix_cons ..
  | case5 => cases h
  | case6 b rest' _ _ _ ih => exact (ih h).trans (List.suffix_cons ..)

theorem afterTriple?_suffix {quote : UInt8} {text rest : Bytes}
    (h : afterTriple? quote text = some rest) : rest <:+ text := by
  fun_induction afterTriple? quote text with
  | case1 => cases h
  | case2 => cases h
  | case3 b c ih => exact ((ih h).trans (List.suffix_cons ..)).trans (List.suffix_cons ..)
  | case4 b rest' => cases h; exact (List.drop_suffix ..).trans (List.suffix_cons ..)
  | case5 b rest' _ _ ih => exact (ih h).trans (List.suffix_cons ..)

theorem after?_suffix {quote : UInt8} {text rest : Bytes} (h : after? (quote :: text) = some rest) :
    rest <:+ text := by
  simp only [after?] at h
  split at h
  · rename_i body hb
    rw [eq_append_of_afterWord? hb]
    exact (afterTriple?_suffix h).trans (List.suffix_append ..)
  · exact afterPlain?_suffix h

end ManifestScan.Literal
