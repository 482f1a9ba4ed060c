import ManifestScan.Proofs.Text.Call

namespace ManifestScan.Registration

/-- What stands in front of the parenthesis of a signature. -/
theorem signatureReach?_front {name : Bytes} {previous : Option UInt8} {text : Bytes} {reach : Nat}
    (h : signatureReach? name previous text = some reach) :
    ∃ spaces more rest, text = ascii "def" ++ spaces ++ name ++ more ++ leftParen :: rest ∧
      (∀ b ∈ spaces, isSpace b = true) ∧ ∀ b ∈ more, isSpace b = true := by
  unfold signatureReach? at h
  split at h
  · cases h
  · rename_i behind hd
    dsimp only at h
    split at h
    · obtain ⟨width, hr, -⟩ := Option.map_eq_some_iff.1 h
      unfold Place.reach? at hr
      split at hr
      · cases hr
      · rename_i rest hn
        dsimp only at hr
        split at hr
        · rename_i hc
          have hfront := List.prefix_iff_eq_append.1 (List.takeWhile_prefix isSpace (l := behind))
          have hback := List.prefix_iff_eq_append.1 (List.takeWhile_prefix isSpace (l := rest))
          rw [eq_append_of_afterWord? hn] at hfront
          obtain ⟨hlt, hget⟩ := List.getElem?_eq_some_iff.1 hc.2.2
          rw [List.drop_eq_getElem_cons hlt, hget] at hback
          refine ⟨behind.takeWhile isSpace, rest.takeWhile isSpace,
            rest.drop ((rest.takeWhile isSpace).length + 1), ?_, ?_, ?_⟩
          · rw [eq_append_of_afterWord? hd]
            simp only [List.append_assoc]
            rw [hback, hfront]
          · exact fun b hm => List.mem_takeWhile_imp hm
          · exact fun b hm => List.mem_takeWhile_imp hm
        · cases hr
    · cases h

/-- No signature starts in a line without parentheses, wherever the text goes on. -/
theorem signatureReach?_line {name : Bytes} (hn : name.all isNameByte = true)
    {previous : Option UInt8} {line : Bytes} (hl : leftParen ∉ line) (rest : Bytes) :
    signatureReach? name previous (line ++ lineFeed :: rest) = none := by
  have hbyte : ∀ b, isNameByte b = true → b ≠ lineFeed := by decide +kernel
  have hspace : ∀ b, isSpace b = true → b ≠ lineFeed := by decide +kernel
  have hdef : lineFeed ∉ ascii "def" := by decide
  cases h : signatureReach? name previous (line ++ lineFeed :: rest) with
  | none => rfl
  | some reach =>
    obtain ⟨spaces, more, behind, he, hs, hm⟩ := signatureReach?_front h
    have hfront : lineFeed ∉ ascii "def" ++ spaces ++ name ++ more := by
      simp only [List.mem_append, not_or]
      refine ⟨⟨⟨hdef, ?_⟩, ?_⟩, ?_⟩
      · exact fun hx => hspace _ (hs _ hx) rfl
      · exact fun hx => hbyte _ (List.all_eq_true.1 hn _ hx) rfl
      · exact fun hx => hspace _ (hm _ hx) rfl
    -- Either the line feed is in the signature or the parenthesis is in the line.
    rcases List.append_eq_append_iff.1 he with ⟨t, ht, hr⟩ | ⟨t, ht, hr⟩
    · cases t with
      | nil => exact absurd (List.cons.inj hr).1 (by decide)
      | cons c t =>
        obtain rfl := (List.cons.inj hr).1
        exact absurd (by rw [ht]; simp) hfront
    · cases t with
      | nil => exact absurd (List.cons.inj hr).1 (by decide)
      | cons c t =>
        obtain rfl := (List.cons.inj hr).1
        exact absurd (by rw [ht]; simp) hl

/-- Whole lines without parentheses are passed in the search for a signature. -/
theorem signatureStart?_lines {name : Bytes} (hn : name.all isNameByte = true) {text : Bytes}
    (hp : leftParen ∉ text) (hl : ∀ b, text.getLast? = some b → b = lineFeed)
    (previous : Option UInt8) (offset : Nat) (rest : Bytes) :
    signatureStart? name previous offset (text ++ rest) =
      signatureStart? name (Place.behind previous text) (offset + text.length) rest := by
  -- Byte by byte: what is left of whole lines still ends with a line feed.
  induction text generalizing previous offset with
  | nil => rfl
  | cons b text ih =>
    obtain ⟨line, hline⟩ : ∃ line, b :: text = line ++ [lineFeed] := by
      obtain hnil | ⟨line, last, hx⟩ := List.eq_nil_or_concat (b :: text)
      · cases hnil
      · rw [List.concat_eq_append] at hx
        obtain rfl := hl last (by rw [hx, List.getLast?_concat])
        exact ⟨line, hx⟩
    have hnone : signatureReach? name previous (b :: (text ++ rest)) = none := by
      rw [← List.cons_append, hline, List.append_assoc]
      refine signatureReach?_line hn (fun hm => hp ?_) rest
      rw [hline]
      simp [hm]
    have hl' : ∀ c, text.getLast? = some c → c = lineFeed := by
      intro c hc
      refine hl c ?_
      cases text with
      | nil => cases hc
      | cons d text => rwa [List.getLast?_cons_cons]
    have hi := ih (fun hm => hp (by simp [hm])) hl' (some b) (offset + 1)
    have hb : Place.behind previous (b :: text) = Place.behind (some b) text :=
      Place.behind_append previous [b] text
    rw [List.cons_append, signatureStart?, hnone]
    dsimp only
    rw [hi, hb, List.length_cons, Nat.add_assoc, Nat.add_comm 1]

/-- The signature of a function without parameters. -/
theorem signatureReach?_self {name : Bytes} (hi : isIdentifier name = true)
    {previous : Option UInt8} (hp : Place.startsName previous = true) (rest : Bytes) :
    signatureReach? name previous (ascii "def " ++ (name ++ leftParen :: rest)) =
      some (4 + name.length) := by
  have hsplit : ascii "def " ++ (name ++ leftParen :: rest) =
      ascii "def" ++ ([space] ++ (name ++ leftParen :: rest)) := by
    have : ascii "def " = ascii "def" ++ [space] := by decide
    rw [this, List.append_assoc]
  have hspaces : ([space] ++ (name ++ leftParen :: rest)).takeWhile isSpace = [space] := by
    have hhead : ∀ b, isNameByte b = true → isSpace b = false := by decide +kernel
    cases name with
    | nil => cases hi
    | cons b name =>
      simp only [isIdentifier, List.all_cons, Bool.and_eq_true] at hi
      rw [List.singleton_append, List.takeWhile_cons_of_pos (by decide), List.cons_append,
        List.takeWhile_cons_of_neg (by simp [hhead b hi.2.1])]
  rw [hsplit, signatureReach?, afterWord?_self]
  dsimp only
  rw [hspaces, if_pos ⟨hp, by decide⟩, List.drop_left, List.getLast?_singleton,
    Place.reach?_self (by decide) name (by decide) (by decide), Option.map_some]
  rfl

end ManifestScan.Registration
