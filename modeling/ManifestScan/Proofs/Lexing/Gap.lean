import ManifestScan.Proofs.Lexing.Sound
import ManifestScan.Text.Block

namespace ManifestScan

/-- What stands between tokens, from an offset on and in front of `rest`: blanks, comments up to
their line end, joined lines, and single bytes at the given offsets that start no token. -/
inductive Gap (rest : Bytes) : Nat → Bytes → List Nat → Prop
  | nil {offset : Nat} : Gap rest offset [] []
  | blank {offset : Nat} {b : UInt8} {text : Bytes} {unknown : List Nat}
    (hb : b ∈ [space, tab, carriageReturn, lineFeed, formFeed])
    (h : Gap rest (offset + 1) text unknown) : Gap rest offset (b :: text) unknown
  | comment {offset : Nat} {words text : Bytes} {unknown : List Nat} (hw : lineFeed ∉ words)
    (he : (text ++ rest).head?.all (· == lineFeed) = true)
    (h : Gap rest (offset + (hash :: words).length) text unknown) :
    Gap rest offset (hash :: words ++ text) unknown
  | join {offset : Nat} {text : Bytes} {unknown : List Nat}
      (h : Gap rest (offset + 2) text unknown) :
    Gap rest offset (backslash :: lineFeed :: text) unknown
  | joinReturn {offset : Nat} {text : Bytes} {unknown : List Nat}
    (h : Gap rest (offset + 3) text unknown) :
    Gap rest offset (backslash :: carriageReturn :: lineFeed :: text) unknown
  | unknown {offset : Nat} {b : UInt8} {text : Bytes} {unknown : List Nat}
    (h : Gap rest (offset + 1) text unknown) : Gap rest offset (b :: text) (offset :: unknown)

namespace Gap

theorem append {front text rest : Bytes} {offset : Nat} {unknown others : List Nat}
    (h : Gap (text ++ rest) offset front unknown)
    (h' : Gap rest (offset + front.length) text others) :
    Gap rest offset (front ++ text) (unknown ++ others) := by
  induction h with
  | nil => exact h'
  | @blank offset b front unknown hb _ ih =>
    have ho : offset + (b :: front).length = offset + 1 + front.length := by
      rw [List.length_cons, Nat.add_comm _ 1, Nat.add_assoc]
    exact .blank hb (ih (ho ▸ h'))
  | @comment offset words front unknown hw he _ ih =>
    rw [List.length_append, ← Nat.add_assoc] at h'
    rw [List.append_assoc]
    exact .comment hw (by rwa [List.append_assoc]) (ih h')
  | @join offset front unknown _ ih =>
    have ho : offset + (backslash :: lineFeed :: front).length = offset + 2 + front.length := by
      simp only [List.length_cons]
      omega
    exact .join (ih (ho ▸ h'))
  | @joinReturn offset front unknown _ ih =>
    have ho : offset + (backslash :: carriageReturn :: lineFeed :: front).length =
        offset + 3 + front.length := by
      simp only [List.length_cons]
      omega
    exact .joinReturn (ih (ho ▸ h'))
  | @unknown offset b front unknown _ ih =>
    have ho : offset + (b :: front).length = offset + 1 + front.length := by
      rw [List.length_cons, Nat.add_comm _ 1, Nat.add_assoc]
    exact .unknown (ih (ho ▸ h'))

theorem blanks {text : Bytes}
    (ht : ∀ b ∈ text, b ∈ [space, tab, carriageReturn, lineFeed, formFeed]) (rest : Bytes)
    (offset : Nat) : Gap rest offset text [] := by
  induction text generalizing offset with
  | nil => exact .nil
  | cons b text ih => exact .blank (ht b (by simp)) (ih (fun c hc => ht c (by simp [hc])) _)

/-- A comment is cut off at its line end. -/
theorem line (text : Bytes) (offset : Nat) :
    Gap (text.dropWhile (· != lineFeed)) offset (hash :: text.takeWhile (· != lineFeed)) [] := by
  have hw : lineFeed ∉ text.takeWhile (· != lineFeed) := by
    intro hm
    simpa using List.mem_takeWhile_imp hm
  have he : ((text.dropWhile (· != lineFeed)).head?.all (· == lineFeed)) = true := by
    cases hd : text.dropWhile (· != lineFeed) with
    | nil => rfl
    | cons b rest =>
      have hn := @List.head_dropWhile_not _ (· != lineFeed) text (by simp [hd])
      simpa [hd] using hn
  have h := @Gap.comment _ offset _ [] [] hw he .nil
  rwa [List.append_nil] at h

end Gap

namespace Lexeme

theorem prefix_plainBody (quote : UInt8) (text : Bytes) : (plainBody quote text).text <+: text := by
  fun_induction plainBody quote text with
  | case1 => exact List.prefix_rfl
  | case2 => exact List.prefix_rfl
  | case3 c escaped ih =>
    exact List.cons_prefix_cons.2 ⟨rfl, List.cons_prefix_cons.2 ⟨rfl, ih⟩⟩
  | case4 => exact List.nil_prefix
  | case5 rest => exact List.cons_prefix_cons.2 ⟨rfl, List.nil_prefix⟩
  | case6 b text _ _ _ ih => exact List.cons_prefix_cons.2 ⟨rfl, ih⟩

theorem prefix_tripleBody (quote : UInt8) (text : Bytes) :
    (tripleBody quote text).text <+: text := by
  fun_induction tripleBody quote text with
  | case1 => exact List.prefix_rfl
  | case2 => exact List.prefix_rfl
  | case3 c escaped ih =>
    exact List.cons_prefix_cons.2 ⟨rfl, List.cons_prefix_cons.2 ⟨rfl, ih⟩⟩
  | case4 b text _ hq =>
    obtain ⟨rest, ht⟩ := Option.isSome_iff_exists.1 hq.2
    rw [eq_append_of_afterWord? ht, hq.1]
    exact ⟨rest, rfl⟩
  | case5 b text _ _ ih => exact List.cons_prefix_cons.2 ⟨rfl, ih⟩

theorem prefix_ofLiteral (mark : Bytes) (quote : UInt8) (rest : Bytes) :
    (ofLiteral mark quote rest).text <+: mark ++ quote :: rest := by
  have hl : (literalBody quote rest).text <+: quote :: rest := by
    unfold literalBody
    split
    · rename_i body hb
      rw [Body.text_prepend, eq_append_of_afterWord? hb]
      exact (List.prefix_append_right_inj [quote, quote, quote]).2 (prefix_tripleBody quote body)
    · rw [Body.text_prepend]
      exact (List.prefix_append_right_inj [quote]).2 (prefix_plainBody quote rest)
  exact (List.prefix_append_right_inj mark).2 hl

/-- What kind of lexeme a text starts with, and the lexeme's text where it is no token. -/
inductive Form (b : UInt8) (rest : Bytes) : Lexeme → Prop
  | blank (hb : b ∈ [space, tab, carriageReturn, lineFeed, formFeed]) : Form b rest ⟨.filler, [b]⟩
  | join {after : Bytes} (he : b :: rest = backslash :: lineFeed :: after) :
    Form b rest ⟨.filler, [backslash, lineFeed]⟩
  | joinReturn {after : Bytes} (he : b :: rest = backslash :: carriageReturn :: lineFeed :: after) :
    Form b rest ⟨.filler, [backslash, carriageReturn, lineFeed]⟩
  | comment (hb : b = hash) : Form b rest ⟨.filler, hash :: rest.takeWhile (· != lineFeed)⟩
  | lineBreak (hb : b = lineFeed) : Form b rest ⟨.lineBreak, [b]⟩
  | token {kind : TokenKind} {text : Bytes} (hp : text <+: b :: rest) :
    Form b rest ⟨.token kind, text⟩
  | unclosed {text : Bytes} (hp : text <+: b :: rest) : Form b rest ⟨.unclosed, text⟩
  | unknown : Form b rest ⟨.unknown, [b]⟩

theorem Form.prefix_text {b : UInt8} {rest : Bytes} {lexeme : Lexeme} (h : Form b rest lexeme) :
    lexeme.text <+: b :: rest := by
  cases h with
  | blank => exact ⟨rest, rfl⟩
  | join he => exact ⟨_, he.symm⟩
  | joinReturn he => exact ⟨_, he.symm⟩
  | comment hb =>
    rw [hb]
    exact List.cons_prefix_cons.2 ⟨rfl, List.takeWhile_prefix _⟩
  | lineBreak => exact ⟨rest, rfl⟩
  | token hp => exact hp
  | unclosed hp => exact hp
  | unknown => exact ⟨rest, rfl⟩

theorem Form.of_ofLiteral {b : UInt8} {rest mark after : Bytes} {quote : UInt8}
    (he : b :: rest = mark ++ quote :: after) : Form b rest (ofLiteral mark quote after) := by
  have hp := prefix_ofLiteral mark quote after
  rw [← he] at hp
  unfold ofLiteral at hp ⊢
  dsimp only at hp ⊢
  split
  · exact .token hp
  · exact .unclosed hp

theorem form_unlessAssigned {b : UInt8} {rest mark after : Bytes} (kind : TokenKind)
    (he : b :: rest = mark ++ after) : Form b rest (unlessAssigned kind mark after) := by
  rw [unlessAssigned]
  split
  · rename_i h
    obtain ⟨behind, rfl⟩ := eq_cons_of_head? h
    refine .token ⟨behind, ?_⟩
    rw [he, List.append_assoc]
    rfl
  · exact .token ⟨after, he.symm⟩

theorem form_punctuation (b : UInt8) (rest : Bytes) : Form b rest (punctuation b rest) := by
  unfold punctuation
  split
  · exact .token ⟨rest, rfl⟩
  split
  · exact form_unlessAssigned _ rfl
  split
  · exact form_unlessAssigned _ rfl
  split
  · exact form_unlessAssigned _ rfl
  split
  · split
    · rename_i h
      obtain ⟨after, rfl⟩ := eq_cons_of_head? h
      exact form_unlessAssigned _ rfl
    · exact form_unlessAssigned _ rfl
  split
  · rename_i h
    obtain ⟨after, rfl⟩ := eq_cons_of_head? h.2
    exact .token ⟨after, rfl⟩
  split
  · split
    · rename_i h
      obtain ⟨after, rfl⟩ := eq_cons_of_head? h.2
      exact form_unlessAssigned _ rfl
    · exact form_unlessAssigned _ rfl
  · exact .unknown

/-- Every text starts with a lexeme of one of the forms. -/
theorem form_read (b : UInt8) (rest : Bytes) : Form b rest (read b rest) := by
  have hf : ∀ b, isFiller b = true → b ∈ [space, tab, carriageReturn, lineFeed, formFeed] := by
    decide +kernel
  -- One case a branch, in the order of the branches.
  unfold read
  split
  · rename_i hb
    exact .blank (hf b hb)
  split
  · rename_i hb
    obtain ⟨after, rfl⟩ := eq_cons_of_head? hb.2
    rw [hb.1]
    exact .join rfl
  split
  · rename_i hb
    obtain ⟨after, ha⟩ := Option.isSome_iff_exists.1 hb.2
    rw [hb.1, eq_append_of_afterWord? ha]
    exact .joinReturn rfl
  split
  · rename_i hb
    exact .lineBreak hb
  split
  · rename_i hb
    rw [hb]
    exact .comment rfl
  split
  · rename_i hb
    have he := (sound_word hb rest).2
    split
    · rename_i quote after hr
      rw [hr] at he
      dsimp only
      split
      · exact .of_ofLiteral he
      · exact .token ⟨_, he.symm⟩
    · exact .token ⟨_, he.symm⟩
  split
  · exact .token (prefix_number (b :: rest)).1
  split
  · exact .of_ofLiteral rfl
  · exact form_punctuation b rest

theorem prefix_read (b : UInt8) (rest : Bytes) : (read b rest).text <+: b :: rest :=
  (form_read b rest).prefix_text

theorem prefix_token {b : UInt8} {rest text ahead : Bytes} {kind : TokenKind}
    (hr : ahead = b :: rest) (hl : read b rest = ⟨.token kind, text⟩) : text <+: ahead := by
  have hp := prefix_read b rest
  rwa [hl, ← hr] at hp

theorem prefix_unclosed {b : UInt8} {rest text ahead : Bytes}
    (hr : ahead = b :: rest) (hl : read b rest = ⟨.unclosed, text⟩) : text <+: ahead := by
  have hp := prefix_read b rest
  rwa [hl, ← hr] at hp

end Lexeme

end ManifestScan
