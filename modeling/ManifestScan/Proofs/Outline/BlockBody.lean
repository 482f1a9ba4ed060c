import ManifestScan.Proofs.Lexing.Bracket
import ManifestScan.Proofs.Lexing.Kind
import ManifestScan.Proofs.Lexing.PhysicalLine
import ManifestScan.Proofs.Outline.Indentation

namespace ManifestScan

namespace Block

def textsFrom (source : Bytes) (start : Nat) : List Bytes :=
  if start ≤ source.length then lines (source.drop start) else []

theorem textsFrom_cons {source : Bytes} {start : Nat} (h : start ≤ source.length) :
    textsFrom source start =
      lineAt source start :: textsFrom source (start + (lineAt source start).length + 1) := by
  have hn := lineFeed_notMem_lineAt source start
  obtain ⟨hsplit, -, hend⟩ := drop_lineAt h
  unfold textsFrom lines
  rw [if_pos h, hsplit]
  rcases hend with ⟨hd, he⟩ | ⟨hd, he⟩
  · rw [hd, List.append_nil, fields_of_notMem hn, if_neg (by omega)]
  · rw [hd, if_pos he, fields_append, fields_of_notMem hn]
    rfl

theorem textsFrom_nil {source : Bytes} {start : Nat} (h : source.length < start) :
    textsFrom source start = [] := if_neg (Nat.not_le.2 h)

end Block

namespace Settles

variable {column least : Nat} {indents inner outer deeper : List Nat} {layout : List Token}

theorem isLayout (h : Settles column indents layout inner) :
    ∀ token ∈ layout, token.kind.isLayout = true ∧ token.kind ≠ .newline := by
  cases h with
  | deeper hk _ => simp [hk, TokenKind.isLayout]
  | back hk _ _ _ =>
    intro token hm
    rw [hk token hm]
    exact ⟨rfl, by decide⟩

/-- A line ends the block at a column, or that block stays open. -/
theorem ends_or_keeps (h : Settles column (deeper ++ least :: outer) layout inner)
    (hd : ∀ indent ∈ deeper, least < indent) :
    (column < least ∧ ∃ front dedent rest, layout = front ++ dedent :: rest ∧
      dedent.kind = .dedent ∧ Turn.through deeper.length (Token.shifts front) = some 0) ∨
    (least ≤ column ∧ ∃ others, inner = others ++ least :: outer ∧
      (∀ indent ∈ others, least < indent) ∧
      Turn.through deeper.length (Token.shifts layout) = some others.length) := by
  have hhead {others : List Nat} (ho : ∀ indent ∈ others, least < indent) :
      least ≤ (others ++ least :: outer).headD 0 := by
    cases others with
    | nil => exact Nat.le_refl _
    | cons indent others => exact Nat.le_of_lt (ho indent List.mem_cons_self)
  generalize hi : deeper ++ least :: outer = indents at h
  cases h with
  | deeper hk hc =>
    have hlt : least < column := Nat.lt_of_le_of_lt (hi ▸ hhead hd) hc
    refine .inr ⟨Nat.le_of_lt hlt, column :: deeper, by rw [← hi]; rfl,
      List.forall_mem_cons.2 ⟨hlt, hd⟩, ?_⟩
    rw [Token.shifts_indent hk]
    rfl
  | @back closed indents layout hk hl hc hh =>
    -- The closed blocks reach up to `least` or beyond, or they are among the deeper ones.
    rcases List.append_eq_append_iff.1 hi with ⟨more, rfl, hmore⟩ | ⟨others, rfl, rfl⟩
    · cases more with
      | nil =>
        rw [List.nil_append] at hmore
        rw [← hmore] at hh
        refine .inr ⟨Nat.le_of_eq hh, [], hmore.symm, List.forall_mem_nil _, ?_⟩
        rw [List.append_nil] at hl
        rw [← hl, ← Nat.zero_add layout.length]
        exact Token.through_dedents hk 0
      | cons indent more =>
        obtain ⟨rfl, -⟩ := List.cons.inj hmore
        have hlength : deeper.length < layout.length := by
          rw [hl, List.length_append, List.length_cons]
          omega
        refine .inl ⟨hc least (by simp), layout.take deeper.length, layout[deeper.length],
          layout.drop (deeper.length + 1), ?_, hk _ (List.getElem_mem _), ?_⟩
        · rw [← List.drop_eq_getElem_cons hlength, List.take_append_drop]
        · have hfront := @Token.through_dedents (layout.take deeper.length)
            (fun token hm => hk token (List.mem_of_mem_take hm)) 0
          rwa [List.length_take, Nat.min_eq_left (Nat.le_of_lt hlength), Nat.zero_add] at hfront
    · have ho : ∀ indent ∈ others, least < indent :=
        fun indent hm => hd indent (List.mem_append_right _ hm)
      refine .inr ⟨hh ▸ hhead ho, others, rfl, ho, ?_⟩
      rw [List.length_append, ← hl, Nat.add_comm]
      exact Token.through_dedents hk others.length

end Settles

/-- A block ends in the text on the line of its last token and in front of what follows. -/
structure Block.EndsAt (source : Bytes) (last : Token) (after : List Token) (stop : Nat) :
    Prop where
  stop_le : last.stop ≤ stop
  lineFeed_notMem : lineFeed ∉ slice source last.stop stop
  behind : ∀ token ∈ after, token.kind.isLayout = false → stop ≤ token.offset

/-- The first line end in a list is behind the words of the first line. -/
theorem behind_newline {words front behind rest : List Token} {last newline token line : Token}
    (h : words ++ last :: newline :: behind = front ++ token :: line :: rest)
    (hw : ∀ word ∈ words, word.kind ≠ .newline) (hlast : last.kind.isLayout = false)
    (ht : token.kind.isLayout = false) (hn : newline.kind = .newline) (hl : line.kind = .newline) :
    (token = last ∧ rest = behind) ∨ ∃ more, behind = more ++ token :: line :: rest := by
  have hne {token : Token} (hk : token.kind.isLayout = false) : token.kind ≠ .newline := by
    intro he
    rw [he] at hk
    cases hk
  induction words generalizing front with
  | nil =>
    match front, h with
    | [], h =>
      cases h
      exact .inl ⟨rfl, rfl⟩
    | [_], h =>
      cases h
      exact absurd hn (hne ht)
    | _ :: _ :: more, h =>
      cases h
      exact .inr ⟨more, rfl⟩
  | cons word words ih =>
    obtain ⟨-, hw⟩ := List.forall_mem_cons.1 hw
    cases front with
    | cons _ front => exact ih (List.cons.inj h).2 hw
    | nil =>
      -- The token behind a word of the line is no line end.
      have h := (List.cons.inj h).2
      cases words with
      | nil =>
        cases h
        exact absurd hl (hne hlast)
      | cons word words =>
        cases h
        exact absurd hl (hw _ List.mem_cons_self)

namespace PhysicalLines

variable {source : Bytes} {start : Nat} {indents : List Nat} {tokens : List Token}

theorem le_offset (h : PhysicalLines source start indents tokens) :
    ∀ token ∈ tokens, token.kind.isLayout = false → start ≤ token.offset := by
  induction h with
  | nil _ hk _ hf =>
    intro token hm hl
    rcases List.mem_append.1 hm with hm | hm
    · rw [hk token hm] at hl
      cases hl
    · rw [List.mem_singleton.1 hm, hf] at hl
      cases hl
  | idle _ _ _ ih =>
    intro token hm hl
    have := ih token hm hl
    omega
  | content _ _ hs hw _ hn _ ih =>
    intro token hm hl
    rw [List.append_cons, ← List.append_assoc, List.mem_append, List.mem_append,
      List.mem_cons] at hm
    rcases hm with (hm | hm) | rfl | hm
    · rw [(hs.isLayout token hm).1] at hl
      cases hl
    · exact (hw token hm).2.1
    · rw [hn] at hl
      cases hl
    · have := ih token hm hl
      omega

theorem lineFeed_notMem_slice {middle : Nat} (h : start ≤ source.length) (hs : start ≤ middle)
    (hm : middle ≤ start + (lineAt source start).length) :
    lineFeed ∉ slice source middle (start + (lineAt source start).length) := by
  have hn := lineFeed_notMem_lineAt source start
  rw [← slice_lineAt h, ← slice_append hs hm] at hn
  exact fun hb => hn (List.mem_append_right _ hb)

section

variable {layout words : List Token} {last newline : Token}

/-- On its line the last token ends what is passed of a block so far. -/
theorem endsAt_line (h : start ≤ source.length)
    (hw : ∀ word ∈ words ++ [last], word.kind.isLayout = false ∧ start ≤ word.offset ∧
      word.stop ≤ start + (lineAt source start).length) :
    Block.EndsAt source last [] (start + (lineAt source start).length) := by
  obtain ⟨-, hstart, hstop⟩ := hw last (by simp)
  exact ⟨hstop, lineFeed_notMem_slice h (Nat.le_trans hstart last.offset_le_stop) hstop,
    List.forall_mem_nil _⟩

theorem shifts_line (hw : ∀ word ∈ words ++ [last], word.kind.isLayout = false)
    (hn : newline.kind = .newline) :
    Token.shifts (layout ++ (words ++ [last, newline])) = Token.shifts layout := by
  have hsplit : words ++ [last, newline] = (words ++ [last]) ++ [newline] := by simp
  rw [Token.shifts_append, hsplit, Token.shifts_text_append hw,
    Token.shifts_other (by simp [hn]) (by simp [hn])]
  exact List.append_nil _

theorem lastText_line (hl : last.kind.isLayout = false) (hn : newline.kind = .newline)
    (first : Token) (inner : List Token) :
    Token.lastText first ((layout ++ (words ++ [last, newline])) ++ inner) =
      Token.lastText last inner := by
  have hsplit : (layout ++ (words ++ [last, newline])) ++ inner =
      (layout ++ words) ++ last :: newline :: inner := by simp
  rw [hsplit, Token.lastText_append hl, Token.lastText_layout (by rw [hn]; rfl)]

end

/-- The lines that follow a line of a block whose first line is indented to `least`. -/
theorem endsAt_some (h : PhysicalLines source start indents tokens) {least : Nat}
    {deeper outer : List Nat} {inner after : List Token} {dedent last : Token} {stop : Nat}
    (hi : indents = deeper ++ least :: outer) (hd : ∀ indent ∈ deeper, least < indent)
    (ht : tokens = inner ++ dedent :: after) (hk : dedent.kind = .dedent)
    (hb : Turn.through deeper.length (Token.shifts inner) = some 0)
    (hl : Block.EndsAt source last [] stop) (hs : stop ≤ start) :
    Block.EndsAt source (Token.lastText last inner) after
      (Block.stopOf (some least) start stop (Block.textsFrom source start)) := by
  induction h generalizing deeper inner last stop with
  | @nil start indents dedents final hlt hdedents _ hf =>
    have hlayout : ∀ token ∈ inner ++ dedent :: after, token.kind.isLayout = true := by
      rw [← ht]
      intro token hm
      rcases List.mem_append.1 hm with hm | hm
      · rw [hdedents token hm]
        rfl
      · rw [List.mem_singleton.1 hm, hf]
        rfl
    rw [Block.textsFrom_nil hlt, Token.lastText_of_layout fun token hm =>
      hlayout token (List.mem_append_left _ hm)]
    refine ⟨hl.stop_le, hl.lineFeed_notMem, fun token hm hlt => ?_⟩
    rw [hlayout token (by simp [hm])] at hlt
    cases hlt
  | idle hle hidle _ ih =>
    rw [Block.textsFrom_cons hle, Block.stopOf, if_pos hidle]
    exact ih hi hd ht hb hl (by omega)
  | @content start indents inner' layout words tokens last' newline hle hidle hset hw hbehind
      hn h ih =>
    have hwords : ∀ word ∈ words ++ [last'], word.kind.isLayout = false :=
      fun word hm => (hw word hm).1
    rw [Block.textsFrom_cons hle, Block.stopOf, if_neg (by simp [hidle])]
    dsimp only
    subst hi
    -- The layout in front of a line's content ends the block at `least` or leaves it open.
    rcases hset.ends_or_keeps hd with ⟨hlt, front, closing, rest, rfl, hclosing, hfront⟩ |
      ⟨hge, others, rfl, ho, hothers⟩
    · -- The block ends in front of this line.
      rw [if_pos hlt]
      have hafter := (PhysicalLines.content hle hidle hset hw hbehind hn h).le_offset
      rw [List.append_assoc] at ht
      obtain ⟨more, rfl, hmore, hzero⟩ := Token.exists_inner ht.symm hk hb hfront
      obtain rfl : more = [] := by
        cases more with
        | nil => rfl
        | cons token more =>
          obtain ⟨rfl, -⟩ := List.cons.inj hmore
          rw [Token.shifts_dedent hclosing] at hzero
          cases hzero
      rw [List.append_nil] at ht ⊢
      rw [Token.lastText_of_layout fun token hm => (hset.isLayout token (by simp [hm])).1]
      refine ⟨hl.stop_le, hl.lineFeed_notMem, fun token hm hlayout => ?_⟩
      refine Nat.le_trans hs (hafter token ?_ hlayout)
      rw [List.append_assoc, ht]
      simp [hm]
    · rw [if_neg (Nat.not_lt.2 hge)]
      have hsplit : layout ++ (words ++ last' :: newline :: tokens) =
          (layout ++ (words ++ [last', newline])) ++ tokens := by simp
      rw [hsplit] at ht
      obtain ⟨more, rfl, rfl, hzero⟩ := Token.exists_inner ht.symm hk hb
        ((congrArg _ (shifts_line hwords hn)).trans hothers)
      rw [lastText_line (hwords last' (by simp)) hn]
      exact ih rfl ho rfl hzero (endsAt_line hle hw) (Nat.le_succ _)

/-- The lines of a block from the line behind its header on. -/
theorem endsAt_none (h : PhysicalLines source start indents tokens) {inner after : List Token}
    {indent dedent : Token} (ht : tokens = indent :: (inner ++ dedent :: after))
    (hi : indent.kind = .indent) (hk : dedent.kind = .dedent)
    (hb : Turn.through 0 (Token.shifts inner) = some 0) (first : Token) (stop : Nat) :
    start ≤ source.length ∧ Block.EndsAt source (Token.lastText first inner) after
      (Block.stopOf none start stop (Block.textsFrom source start)) := by
  induction h with
  | @nil start indents dedents final hlt hdedents _ hf =>
    cases dedents with
    | nil =>
      obtain ⟨rfl, -⟩ := List.cons.inj ht
      cases hi.symm.trans hf
    | cons token dedents =>
      obtain ⟨rfl, -⟩ := List.cons.inj ht
      cases hi.symm.trans (hdedents _ List.mem_cons_self)
  | idle hle hidle _ ih =>
    rw [Block.textsFrom_cons hle, Block.stopOf, if_pos hidle]
    exact ⟨hle, (ih ht).2⟩
  | @content start indents inner' layout words tokens last newline hle hidle hset hw hbehind
      hn h ih =>
    have hwords : ∀ word ∈ words ++ [last], word.kind.isLayout = false :=
      fun word hm => (hw word hm).1
    rw [Block.textsFrom_cons hle, Block.stopOf, if_neg (by simp [hidle])]
    dsimp only
    cases hset with
    | deeper hindent hc =>
      obtain ⟨rfl, hrest⟩ := List.cons.inj ht
      have hsplit : words ++ last :: newline :: tokens =
          ([] ++ (words ++ [last, newline])) ++ tokens := by simp
      replace hrest : words ++ last :: newline :: tokens = inner ++ dedent :: after := hrest
      rw [hsplit] at hrest
      obtain ⟨more, rfl, rfl, hzero⟩ := Token.exists_inner hrest.symm hk hb
        (congrArg (Turn.through 0) (@shifts_line [] _ _ _ hwords hn))
      rw [if_neg (Nat.ne_of_gt (Nat.zero_lt_of_lt hc)), lastText_line (hwords last (by simp)) hn]
      exact ⟨hle, @endsAt_some _ _ _ _ h _ [] indents _ _ _ _ _ rfl (List.forall_mem_nil _) rfl hk
        hzero (endsAt_line hle hw) (Nat.le_succ _)⟩
    | back hdedents _ _ _ =>
      -- A line that opens no block has no such token in front.
      exfalso
      cases layout with
      | nil =>
        have hm : indent ∈ words ++ [last] := by
          cases words with
          | nil => simp [(List.cons.inj ht).1]
          | cons word words => simp [(List.cons.inj ht).1]
        have := hwords indent hm
        rw [hi] at this
        cases this
      | cons token layout =>
        obtain ⟨rfl, -⟩ := List.cons.inj ht
        cases hi.symm.trans (hdedents _ List.mem_cons_self)

/-- Behind the end of a line the next line starts. -/
theorem exists_below (h : PhysicalLines source start indents tokens) {front rest : List Token}
    {token line : Token} (ht : tokens = front ++ token :: line :: rest)
    (hk : token.kind.isLayout = false) (hl : line.kind = .newline) :
    ∃ begin indents, begin ≤ source.length ∧ begin ≤ token.offset ∧
      token.stop ≤ begin + (lineAt source begin).length ∧
      isIdleLine (slice source token.stop (begin + (lineAt source begin).length)) = true ∧
      PhysicalLines source (begin + (lineAt source begin).length + 1) indents rest := by
  induction h generalizing front with
  | @nil start indents dedents final _ hdedents _ hf =>
    have hm : line ∈ dedents ++ [final] := by
      rw [ht]
      simp
    rcases List.mem_append.1 hm with hm | hm
    · cases hl.symm.trans (hdedents line hm)
    · rw [List.mem_singleton.1 hm] at hl
      cases hl.symm.trans hf
  | idle _ _ _ ih => exact ih ht
  | @content start indents inner layout words tokens last newline hle hidle hset hw hbehind
      hn h ih =>
    have hnot : ∀ word ∈ layout ++ words, word.kind ≠ .newline := by
      intro word hm
      rcases List.mem_append.1 hm with hm | hm
      · exact (hset.isLayout word hm).2
      · intro he
        have := (hw word (List.mem_append_left _ hm)).1
        rw [he] at this
        cases this
    obtain ⟨hlast, hstart, hstop⟩ := hw last (by simp)
    rw [← List.append_assoc] at ht
    rcases behind_newline ht hnot hlast hk hn hl with ⟨rfl, rfl⟩ | ⟨more, rfl⟩
    · exact ⟨start, inner, hle, hstart, hstop, hbehind, h⟩
    · exact ih rfl

end PhysicalLines

/-- The body of a definition is an indented block: behind its colon the line ends and a
block opens. -/
structure Definition.Indented (definition : Definition) (tokens : List Token) (body : Nat) :
    Prop where
  body_eq : definition.body = some body
  opens : ∃ front colon line indent rest, tokens = front ++ colon :: line :: indent :: rest ∧
    colon.stop = body ∧ colon.kind = .colon ∧ line.kind = .newline ∧ indent.kind = .indent

theorem Definition.Indented.of_getElem {definition : Definition} {tokens : List Token}
    {body n : Nat} (hb : definition.body = some body) (h : n + 2 < tokens.length)
    (hs : tokens[n].stop = body) (hc : tokens[n].kind = .colon) (hl : tokens[n + 1].kind = .newline)
    (hi : tokens[n + 2].kind = .indent) : definition.Indented tokens body := by
  refine ⟨hb, tokens.take n, tokens[n], tokens[n + 1], tokens[n + 2], tokens.drop (n + 3), ?_, hs,
    hc, hl, hi⟩
  rw [← List.drop_eq_getElem_cons h, ← List.drop_eq_getElem_cons (by omega),
    ← List.drop_eq_getElem_cons (by omega), List.take_append_drop]

/-- A colon is the one byte in front of its end. -/
theorem text_colon_tokenize (source : Bytes) : ∀ token ∈ (tokenize source).tokens,
    token.kind = .colon → token.text = [colon] := by
  refine forall_tokenize (fun token hl _ hk => ?_) (fun b rest token hr hk => ?_)
    (fun token hs hk => ?_) source
  · rw [hk] at hl
    cases hl
  · exact (Lexeme.shown_of_read hr).eq_colon hk
  · cases hs.symm.trans hk

theorem drop_colon_tokenize {source : Bytes} {token : Token} (hm : token ∈ (tokenize source).tokens)
    (hk : token.kind = .colon) : token.stop = token.offset + 1 ∧
      source.drop token.offset = colon :: source.drop (token.offset + 1) := by
  have htext := text_colon_tokenize source token hm hk
  have hstop : token.stop = token.offset + 1 := by
    rw [Token.stop, Token.length, htext]
    rfl
  obtain ⟨unknown, htiling, -⟩ := tiling_tokenize source
  obtain ⟨_, _, -, hfollows⟩ := htiling.follows token hm
  have hslice := hfollows.text_eq
  rw [htext, hstop] at hslice
  refine ⟨hstop, ?_⟩
  rw [← @slice_append_drop source token.offset _ (Nat.le_succ _), ← hslice]
  rfl

/-- The tokens of text between two offsets are those of the block between them. -/
theorem Token.Ordered.inside_iff {front inner after : List Token} {first line indent dedent : Token}
    (h : Ordered (front ++ first :: line :: indent :: (inner ++ dedent :: after)))
    (hf : first.kind.isLayout = false) (hl : line.kind.isLayout = true)
    (hi : indent.kind.isLayout = true) (hd : dedent.kind.isLayout = true) {source : Bytes}
    {start stop : Nat} (hs : first.stop ≤ start)
    (hb : ∀ token ∈ inner, token.kind.isLayout = false → start ≤ token.offset)
    (he : Block.EndsAt source (lastText first inner) after stop) :
    ∀ token ∈ front ++ first :: line :: indent :: (inner ++ dedent :: after),
      token.kind.isLayout = false → ((start ≤ token.offset ∧ token.stop ≤ stop) ↔
        (first.stop ≤ token.offset ∧ token.stop ≤ (lastText first inner).stop)) := by
  intro token hm hk
  have hlt := h.offset_lt token hm hk
  have hle := he.stop_le
  have hlayout {other : Token} (ho : other.kind.isLayout = true) : token ≠ other := by
    rintro rfl
    rw [ho] at hk
    cases hk
  simp only [List.mem_append, List.mem_cons, hlayout hl, hlayout hi, hlayout hd, false_or] at hm
  rcases hm with hm | rfl | hm | hm
  · have hbefore := h.stop_le hm (List.mem_cons_self (a := first))
    have := first.offset_le_stop
    omega
  · omega
  · have hown : Ordered (first :: inner) := by
      have hsub : (first :: inner).Sublist
          (front ++ first :: line :: indent :: (inner ++ dedent :: after)) := by
        refine .trans ?_ (List.sublist_append_right _ _)
        refine .cons_cons first (.cons line (.cons indent (List.sublist_append_left _ _)))
      exact ⟨h.pairwise.sublist hsub, fun token hm => h.offset_lt token (hsub.subset hm)⟩
    have hstart := hb token hm hk
    have hlast := hown.stop_le_lastText hf (List.mem_cons_of_mem _ hm) hk
    omega
  · have hbehind := he.behind token hm hk
    omega

/-- The text in front of a line break, up to it, and the block below. -/
theorem blockBody_lineAt {source : Bytes} {begin opening : Nat} (hle : begin ≤ source.length)
    (hcolon : source.drop opening = colon :: source.drop (opening + 1)) (hs : begin ≤ opening)
    (hm : opening + 1 ≤ begin + (lineAt source begin).length)
    (hi : isIdleLine (slice source (opening + 1) (begin + (lineAt source begin).length)) = true)
    (hnext : begin + (lineAt source begin).length + 1 ≤ source.length) :
    let start := begin + (lineAt source begin).length + 1
    blockBody source opening =
      ⟨start, Block.stopOf none start start (Block.textsFrom source start)⟩ ∧
      ∃ header, source.drop (opening + 1) = header ++ lineFeed :: source.drop start ∧
        lineFeed ∉ header ∧ start = opening + 1 + header.length + 1 := by
  intro start
  obtain ⟨-, hstop, hend⟩ := drop_lineAt hle
  have hn := PhysicalLines.lineFeed_notMem_slice hle (Nat.le_succ_of_le hs) hm
  have hbreak :
      source.drop (begin + (lineAt source begin).length) = lineFeed :: source.drop start := by
    rcases hend with ⟨-, he⟩ | ⟨hd, -⟩
    · omega
    · exact hd
  have hsplit := @slice_append_drop source _ _ hm
  rw [hbreak] at hsplit
  have hlength : (slice source (opening + 1) (begin + (lineAt source begin).length)).length =
      begin + (lineAt source begin).length - (opening + 1) := by
    rw [slice, List.length_take, List.length_drop]
    omega
  have hstart : start =
      opening + 1 +
        (slice source (opening + 1) (begin + (lineAt source begin).length)).length + 1 := by
    rw [hlength]
    omega
  refine ⟨?_, _, hsplit.symm, hn, hstart⟩
  have hbody := @blockBody_idle source _ (source.drop start) opening (by rw [hcolon, hsplit]) hn hi
  rw [hbody, ← hstart, Block.textsFrom, if_pos hnext]

/-- The block below the colon of a definition agrees with the body that the outline has. It
starts behind the line of the colon, has the tokens of the body, and ends on the line of the
last of them. -/
theorem LineByLine.blockBody_indented {source : Bytes} (h : LineByLine source)
    (hf : (Script.ofSource source).outlineFaults = []) {definition : Definition}
    (hd : definition ∈ (Script.ofSource source).outline.allDefinitions) {body : Nat}
    (hi : definition.Indented (tokenize source).tokens body) :
    let range := blockBody source (body - 1)
    (∃ header, source.drop body = header ++ lineFeed :: source.drop range.start ∧
      lineFeed ∉ header ∧ range.start = body + header.length + 1) ∧
    (∀ token ∈ (tokenize source).tokens, token.kind.isLayout = false →
      ((range.start ≤ token.offset ∧ token.stop ≤ range.stop) ↔
        (body ≤ token.offset ∧ token.stop ≤ definition.extent.stop))) ∧
    definition.extent.stop ≤ range.stop ∧
    lineFeed ∉ slice source definition.extent.stop range.stop := by
  obtain ⟨hbody, front, colon, line, indent, rest, ht, rfl, hc, hl, hk⟩ := hi
  obtain ⟨inner, dedent, after, rfl, hdedent, hinner, hstop⟩ :=
    Outline.exists_block hf hd ht hc hl hk hbody
  have hcolon : colon.kind.isLayout = false := by
    rw [hc]
    rfl
  obtain ⟨begin, indents, hle, hstart, hend, hidle, hlines⟩ :=
    h.physicalLines_tokenize.exists_below ht hcolon hl
  obtain ⟨hnext, hends⟩ := hlines.endsAt_none rfl hk hdedent hinner colon
    (begin + (lineAt source begin).length + 1)
  obtain ⟨hcolonstop, hdrop⟩ := @drop_colon_tokenize source colon (by simp [ht]) hc
  have hinside := Token.ordered_tokenize source
  rw [ht] at hinside ⊢
  replace hinside := hinside.inside_iff hcolon (by rw [hl]; rfl) (by rw [hk]; rfl)
    (by rw [hdedent]; rfl) (Nat.le_succ_of_le hend)
    (fun token hm => hlines.le_offset token (by simp [hm])) hends
  obtain ⟨hrange, hheader⟩ := blockBody_lineAt hle hdrop hstart (hcolonstop ▸ hend)
    (hcolonstop ▸ hidle) hnext
  rw [← hcolonstop] at hheader
  rw [hcolonstop, Nat.add_sub_cancel, hrange, ← hcolonstop, hstop]
  exact ⟨hheader, hinside, hends.stop_le, hends.lineFeed_notMem⟩

theorem LineByLine.blockBody_indented_nested :
    let source :=
      ascii "class C:\n\tdef f(x):  # c\n\n\t  if x:\n# d\n\t\t\tg() # e\n\n  # h\n\ty\n"
    LineByLine source ∧ (Script.ofSource source).outlineFaults = [] ∧
      ∃ definition ∈ (Script.ofSource source).outline.allDefinitions, definition.name = ascii "f" ∧
        definition.Indented (tokenize source).tokens 19 ∧
        let range := blockBody source 18
        (∃ header, source.drop 19 = header ++ lineFeed :: source.drop range.start ∧
          lineFeed ∉ header ∧ range.start = 19 + header.length + 1) ∧
        (∀ token ∈ (tokenize source).tokens, token.kind.isLayout = false →
          ((range.start ≤ token.offset ∧ token.stop ≤ range.stop) ↔
            (19 ≤ token.offset ∧ token.stop ≤ definition.extent.stop))) ∧
        definition.extent.stop ≤ range.stop ∧
        lineFeed ∉ slice source definition.extent.stop range.stop := by
  intro source
  obtain ⟨hclean, hturns, htexts, hlength, hstop, hcolon, hline, hindent⟩ :
      (tokenize source).faults = [] ∧
      (∀ token ∈ (tokenize source).tokens, Turn.through 0 (((tokenize source).tokens.filter
        (·.span.start.line = token.span.start.line)).filterMap Token.turn?) = some 0) ∧
      (∀ token ∈ (tokenize source).tokens, lineFeed ∉ token.text) ∧
      ∃ h : 10 + 2 < (tokenize source).tokens.length, (tokenize source).tokens[10].stop = 19 ∧
        (tokenize source).tokens[10].kind = .colon ∧
        (tokenize source).tokens[10 + 1].kind = .newline ∧
        (tokenize source).tokens[10 + 2].kind = .indent := by decide +kernel
  obtain ⟨hf, hmembers, hname, hbody⟩ : (Script.ofSource source).outlineFaults = [] ∧
      ∃ h : 1 < (Script.ofSource source).outline.allDefinitions.length,
        (Script.ofSource source).outline.allDefinitions[1].name = ascii "f" ∧
        (Script.ofSource source).outline.allDefinitions[1].body = some 19 := by decide +kernel
  have hlines : LineByLine source := .of_plain hclean (by decide +kernel) hturns htexts
  have hm := List.getElem_mem hmembers
  have hindented := Definition.Indented.of_getElem hbody hlength hstop hcolon hline hindent
  exact ⟨hlines, hf, _, hm, hname, hindented, hlines.blockBody_indented hf hm hindented⟩

end ManifestScan
