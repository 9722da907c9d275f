import StagedTangent.Proofs.Source.Spacing

/-!
# Blanks between lexemes

Blanks between the lexemes of a function that is read leave the function as it is, up to ranges, in
all places but one: in front of the parenthesis that closes the parameters, where the list of
parameters is empty or ends with a comma. `InOpenList` describes this place. A text is read as its
lexemes are in whatever way they are spaced, if no blank stands there (`definition_admits`), and no
text is read in which one does (`closesTightly_of_definition`).
-/

namespace StagedTangent.Source

/-- A parameter without its range. -/
def Param.bare (param : Param) : Param := ⟨param.name, ⟨0, 0⟩⟩

/-- A function without the ranges of its parts. -/
def Function.bare (f : Function) : Function := ⟨f.name, f.params.map Param.bare, f.body.bare, ⟨0, 0⟩⟩

/-- A place behind an opening parenthesis or a comma and in front of a closing parenthesis, which is
the first one of the text. -/
structure InOpenList (front back : List Char) : Prop where
  behind : (solid front).getLast? = some '(' ∨ (solid front).getLast? = some ','
  before : (solid back).head? = some ')'
  first : ')' ∉ front

/-- No blank stands at such a place. -/
def ClosesTightly (text : List Char) : Prop :=
  ∀ front b back, text = front ++ b :: back → Text.isBlank b = true → ¬InOpenList front back

variable {text front back blanks letters : List Char} {c c₁ c' : Cursor}

/-! ## Blanks in an open list -/

theorem mem_solid {d : Char} {cs : List Char} (hd : Text.isBlank d = false) : d ∈ solid cs ↔ d ∈ cs := by
  rw [solid, List.mem_filter, hd]
  exact and_iff_left rfl

/-- Blanks make no difference to whether a place is in an open list. -/
theorem InOpenList.congr {front' back' : List Char} (h : InOpenList front back)
    (hfront : solid front = solid front') (hback : solid back = solid back') :
    InOpenList front' back' := by
  refine ⟨hfront ▸ h.behind, hback ▸ h.before, fun hmem => h.first ?_⟩
  rw [← mem_solid rfl, hfront]
  exact (mem_solid rfl).2 hmem

theorem solid_insert (hblanks : ∀ b ∈ blanks, Text.isBlank b = true) (front back : List Char) :
    solid (front ++ blanks ++ back) = solid (front ++ back) := by
  rw [solid_append, solid_append, solid_append, solid_blanks hblanks, List.append_nil]

/-- An item of two lists in a row is in the first or in the second. -/
theorem split_append {α : Type} {u v front back : List α} {b : α} (h : front ++ back = u ++ b :: v) :
    (∃ w, front = u ++ b :: w ∧ v = w ++ back) ∨ ∃ w, u = front ++ w ∧ back = w ++ b :: v := by
  rcases List.append_eq_append_iff.1 h with hback | ⟨w, hfront, hw⟩
  · exact .inr hback
  · rcases List.cons_eq_append_iff.1 hw with ⟨rfl, hback⟩ | ⟨w, rfl, hv⟩
    · rw [List.append_nil] at hfront
      exact .inr ⟨[], by rw [hfront, List.append_nil], hback⟩
    · exact .inl ⟨w, hfront, hv⟩

/-- What stands before the first of an item. -/
theorem eq_of_append_cons {α : Type} {u u' v w : List α} {b : α} (hu : b ∉ u) (hu' : b ∉ u')
    (h : u ++ b :: v = u' ++ b :: w) : u = u' := by
  rcases split_append h with ⟨x, rfl, -⟩ | ⟨x, rfl, hx⟩
  · exact absurd (List.mem_append_right _ List.mem_cons_self) hu
  · rcases List.cons_eq_append_iff.1 hx with ⟨rfl, -⟩ | ⟨y, rfl, -⟩
    · exact (List.append_nil u).symm
    · exact absurd (List.mem_append_right _ List.mem_cons_self) hu'

/-- Blanks can be put where there is no such place. -/
theorem closesTightly_insert (h : ClosesTightly (front ++ back))
    (hblanks : ∀ b ∈ blanks, Text.isBlank b = true) (hplace : ¬InOpenList front back) :
    ClosesTightly (front ++ blanks ++ back) := by
  intro u b v htext hb hopen
  rcases split_append htext with ⟨w, hfront, rfl⟩ | ⟨w, rfl, hback⟩
  · rcases split_append hfront with ⟨w', rfl, rfl⟩ | ⟨w', rfl, rfl⟩
    · refine h u b (w' ++ back) (by rw [List.append_assoc, List.cons_append]) hb ?_
      exact hopen.congr rfl (solid_insert hblanks w' back)
    · have hw : ∀ d ∈ w, Text.isBlank d = true := fun d hd =>
        hblanks d (List.mem_append_right _ (List.mem_cons_of_mem _ hd))
      have hw' : ∀ d ∈ w', Text.isBlank d = true := fun d hd =>
        hblanks d (List.mem_append_left _ hd)
      refine hplace (hopen.congr ?_ ?_)
      · rw [solid_append, solid_blanks hw', List.append_nil]
      · rw [solid_append, solid_blanks hw, List.nil_append]
  · refine h (front ++ w) b v (by rw [hback, List.append_assoc]) hb ?_
    exact hopen.congr (solid_insert hblanks front w) rfl

/-- A text with a blank at such a place. -/
theorem not_closesTightly_insert (hblanks : ∀ b ∈ blanks, Text.isBlank b = true) (hne : blanks ≠ [])
    (hplace : InOpenList front back) : ¬ClosesTightly (front ++ blanks ++ back) := by
  obtain ⟨b, more, rfl⟩ := List.exists_cons_of_ne_nil hne
  obtain ⟨hb, hmore⟩ := List.forall_mem_cons.1 hblanks
  intro h
  refine h front b (more ++ back) (List.append_assoc ..) hb (hplace.congr rfl ?_)
  rw [solid_append, solid_blanks hmore, List.nil_append]

/-! ## Places in a text without a closing parenthesis before them -/

/-- No closing parenthesis stands in front of a place. -/
def Unclosed (text : List Char) (c : Cursor) : Prop := ∃ front, text = front ++ c.rest ∧ ')' ∉ front

theorem Unclosed.spells (h : Unclosed text c) (hspells : c.Spells letters c')
    (hletters : ')' ∉ letters) : Unclosed text c' := by
  obtain ⟨front, rfl, hfront⟩ := h
  refine ⟨front ++ letters, by rw [hspells.rest, List.append_assoc], ?_⟩
  rw [List.mem_append, not_or]
  exact ⟨hfront, hletters⟩

theorem Unclosed.skip (h : Unclosed text c) (hblanks : Blanks c c') : Unclosed text c' := by
  obtain ⟨blanks, hall, hspells⟩ := hblanks
  exact h.spells hspells fun hmem => by cases hall _ hmem

theorem Unclosed.name (h : Unclosed text c) (hletters : IsName letters)
    (hspells : c.Spells letters c') : Unclosed text c' :=
  h.spells hspells fun hmem => by cases hletters.isWordPart _ hmem

theorem Unclosed.parameter {param : Param} (h : Unclosed text c) (hparam : Parameter c param c') :
    Unclosed text c' := by
  cases hparam with
  | mk hblanks hletters hspells hblanks' => exact ((h.skip hblanks).name hletters hspells).skip hblanks'

/-- Behind an opening parenthesis or a comma the closing parenthesis follows at once. -/
theorem ClosesTightly.tight (h : ClosesTightly text) {d : Char} (hd : d = '(' ∨ d = ',')
    (hc : Unclosed text c) (hspells : c.Spells [d] c') {more : List (List Char)}
    (hmore : lexemes c'.rest = [')'] :: more) : c'.Tight := by
  intro b rest hrest
  by_contra hblank
  rw [Bool.not_eq_false] at hblank
  obtain ⟨front, rfl, hfront⟩ := hc
  have hsolid : solid (front ++ [d]) = solid front ++ [d] := by
    rw [solid_append]
    rcases hd with rfl | rfl <;> rfl
  refine h (front ++ [d]) b rest ?_ hblank ⟨?_, ?_, ?_⟩
  · rw [hspells.rest, hrest, List.append_assoc]
  · rw [hsolid, List.getLast?_concat]
    exact hd.imp (congrArg some) (congrArg some)
  · rw [hrest, lexemes_blank hblank] at hmore
    exact head?_solid_of_lexemes hmore
  · rw [List.mem_append, not_or, List.mem_singleton]
    refine ⟨hfront, ?_⟩
    rcases hd with rfl | rfl <;> decide

/-! ## What is read closes tightly -/

/-- A place behind which the list of parameters may end: no closing parenthesis stands in front of
it, and no blank does but behind a name. -/
def EndsList (text : List Char) (c : Cursor) : Prop :=
  ∃ front, text = front ++ c.rest ∧ ')' ∉ front ∧
    ((∀ b ∈ front.getLast?, Text.isBlank b = false) ∨
      ∃ d ∈ (solid front).getLast?, isNamePart d = true)

theorem EndsList.unclosed (h : EndsList text c) : Unclosed text c := by
  obtain ⟨front, htext, hfront, -⟩ := h
  exact ⟨front, htext, hfront⟩

theorem Unclosed.endsList_sign (h : Unclosed text c) {d : Char} (hspells : c.Spells [d] c')
    (hd : Text.isBlank d = false) (hne : d ≠ ')') : EndsList text c' := by
  obtain ⟨front, rfl, hfront⟩ := h
  refine ⟨front ++ [d], ?_, ?_, .inl fun b hb => ?_⟩
  · rw [hspells.rest, List.append_assoc]
  · rw [List.mem_append, not_or, List.mem_singleton]
    exact ⟨hfront, hne.symm⟩
  · rw [List.getLast?_concat] at hb
    obtain rfl := Option.some.inj hb
    exact hd

theorem Unclosed.endsList_parameter {param : Param} (h : Unclosed text c)
    (hparam : Parameter c param c') : EndsList text c' := by
  cases hparam with
  | @mk _ c₁ c₂ _ letters hblanks hletters hspells hblanks' =>
    obtain ⟨front, rfl, hfront⟩ := h.skip hblanks
    obtain ⟨blanks, hall, hbehind⟩ := hblanks'
    have hsolid : solid (front ++ letters ++ blanks) = solid front ++ letters := by
      rw [solid_append, solid_append, solid_blanks hall, List.append_nil,
        solid_of_forall fun e he => isBlank_of_isNamePart (hletters.isNamePart e he)]
    refine ⟨front ++ letters ++ blanks, ?_, fun hmem => ?_, .inr ?_⟩
    · rw [hspells.rest, hbehind.rest, List.append_assoc, List.append_assoc]
    · rw [← mem_solid rfl, hsolid, List.mem_append, mem_solid rfl] at hmem
      exact hmem.elim hfront fun hmem => by cases hletters.isNamePart _ hmem
    · rw [hsolid, List.getLast?_append_of_ne_nil _ hletters.ne_nil,
        List.getLast?_eq_some_getLast hletters.ne_nil]
      exact ⟨_, rfl, hletters.isNamePart _ (List.getLast_mem _)⟩

theorem further_endsList {params : List Param} (h : EndsList text c)
    (hfurther : Further Parameter (fun d d' => d.Spells [','] d') c params c') :
    EndsList text c' := by
  induction hfurther with
  | last c => exact h
  | trailing hcomma => exact h.unclosed.endsList_sign hcomma rfl (by decide)
  | more hcomma hparam _ ih =>
    have hbehind := h.unclosed.endsList_sign hcomma rfl (by decide)
    exact ih (hbehind.unclosed.endsList_parameter hparam)

theorem items_endsList {params : List Param} (h : EndsList text c)
    (hitems : Items Parameter (fun d d' => d.Spells [','] d') c params c') : EndsList text c' := by
  cases hitems with
  | none c => exact h
  | some hparam hfurther => exact further_endsList (h.unclosed.endsList_parameter hparam) hfurther

/-- Where the list of parameters may end, no blank stands in an open list. -/
theorem EndsList.closesTightly {rest : List Char} (h : EndsList text c) (hrest : c.rest = ')' :: rest) :
    ClosesTightly text := by
  obtain ⟨list, rfl, hlist, hends⟩ := h
  intro front b back htext hb hopen
  obtain ⟨after, hback⟩ := List.head?_eq_some_iff.1 hopen.before
  obtain ⟨blanks, rest', rfl, hblanks, -, -⟩ := List.filter_eq_cons_iff.1 hback
  have hall : ∀ d ∈ b :: blanks, Text.isBlank d = true := by
    refine List.forall_mem_cons.2 ⟨hb, fun d hd => ?_⟩
    have hd := hblanks d hd
    rwa [Bool.not_eq_true, Bool.not_eq_false'] at hd
  have hno : ')' ∉ front ++ b :: blanks := by
    rw [List.mem_append, not_or]
    exact ⟨hopen.first, fun hmem => by cases hall _ hmem⟩
  obtain rfl : list = front ++ b :: blanks := by
    refine eq_of_append_cons hlist hno (v := rest) (w := rest') ?_
    rw [← hrest, htext, List.append_assoc, List.cons_append]
  rcases hends with hlast | ⟨d, hd, hpart⟩
  · have hmem := List.getLast_mem (List.cons_ne_nil b blanks)
    have hend : (front ++ b :: blanks).getLast? = some ((b :: blanks).getLast (List.cons_ne_nil _ _)) := by
      rw [List.getLast?_append_of_ne_nil _ (List.cons_ne_nil _ _),
        List.getLast?_eq_some_getLast (List.cons_ne_nil _ _)]
    cases (hall _ hmem).symm.trans (hlast _ hend)
  · rw [solid_append, solid_blanks hall, List.append_nil] at hd
    rcases hopen.behind with hopening | hcomma
    · cases hd.symm.trans hopening
      cases hpart
    · cases hd.symm.trans hcomma
      cases hpart

/-- No blank stands in an open list of a text that is read. -/
theorem closesTightly_of_definition {f : Function} (h : Definition c f c') : ClosesTightly c.rest := by
  cases h with
  | mk hblanks hspells _ hblanks' hletters hname hopening hitems hclosing _ _ =>
    have hstart : Unclosed c.rest c := ⟨[], rfl, List.not_mem_nil⟩
    obtain ⟨_, hname, hbehind⟩ := hname
    have hkeyword := (hstart.skip hblanks).spells hspells (by decide)
    have hopen := ((hkeyword.skip hblanks').name hletters hname).skip hbehind
    obtain ⟨_, hclosing, -⟩ := hclosing
    exact (items_endsList (hopen.endsList_sign hopening rfl (by decide)) hitems).closesTightly
      hclosing.rest

/-! ## Texts with the same lexemes -/

variable {words : List (List Char)}

/-- A parameter is its name, whatever blanks are around it. -/
theorem parameter_carries {param : Param} (h : Parameter c param c') (hc' : EndsWord c') :
    ∃ letters, Covers [letters] c c' ∧ ∀ ⦃d : Cursor⦄ ⦃more : List (List Char)⦄,
      lexemes d.rest = letters :: more → ∃ param' d', Parameter d param' d' ∧
        param'.bare = param.bare ∧ d'.Tight ∧ lexemes d'.rest = more := by
  cases h with
  | @mk _ c₁ c₂ _ letters hblanks hletters hspells hblanks' =>
    have htoken : Token letters c₁ c' := ⟨c₂, hspells, hblanks'⟩
    obtain ⟨hlexical, heq⟩ := htoken.covers_name hletters hc'
    refine ⟨letters, ⟨hlexical, hblanks.lexemes_eq.trans heq⟩, fun d more hmore => ?_⟩
    have hskip := d.blanks_skipBlanks
    obtain ⟨d', ⟨d₂, hspells', hbehind⟩, hd', hmore'⟩ :=
      exists_token_of_lexemes d.tight_skipBlanks (hskip.lexemes_eq.symm.trans hmore)
    exact ⟨_, d', .mk hskip hletters hspells' hbehind, rfl, hd', hmore'⟩

/-- Parameters behind the first one are found again in a text that closes tightly. -/
theorem further_parameters_carry {params : List Param}
    (h : Further Parameter (fun d d' => d.Spells [','] d') c params c')
    (hc' : EndsWord c') : ∃ words, Covers words c c' ∧ ∀ ⦃text⦄ ⦃d : Cursor⦄ ⦃more⦄,
      ClosesTightly text → Unclosed text d → d.Tight → lexemes d.rest = words ++ [')'] :: more →
        ∃ params' d', Further Parameter (fun d d' => d.Spells [','] d') d params' d' ∧
          params'.map Param.bare = params.map Param.bare ∧ d'.Tight ∧
            lexemes d'.rest = [')'] :: more := by
  induction h with
  | last c => exact ⟨[], .nil c, fun text d more _ _ hd hmore => ⟨[], d, .last d, rfl, hd, hmore⟩⟩
  | @trailing c c' hcomma =>
    have htoken := hcomma.token
    refine ⟨[[',']], htoken.covers_sign rfl, fun text d more htext hopen hd hmore => ?_⟩
    obtain ⟨d', hspells, hmore', -⟩ := exists_spells_of_lexemes hd hmore
    exact ⟨[], d', .trailing hspells, rfl, htext.tight (.inr rfl) hopen hspells hmore', hmore'⟩
  | @more c c₁ c₂ c' param params hcomma hparam hfurther ih =>
    have htoken := hcomma.token
    have hbehind : EndsWord c₂ := hfurther.meets (fun hcomma => hcomma.meets rfl) hc'
    obtain ⟨letters, hname, hcarries⟩ := parameter_carries hparam hbehind
    obtain ⟨words, hwords, hcarries'⟩ := ih hc'
    refine ⟨[','] :: letters :: words, (htoken.covers_sign rfl).cons (hname.cons hwords),
      fun text d more htext hopen hd hmore => ?_⟩
    obtain ⟨d₁, hspells, hmore₁, -⟩ := exists_spells_of_lexemes hd hmore
    obtain ⟨param', d₂, hparam', hbare, hd₂, hmore₂⟩ := hcarries hmore₁
    have hopen₂ := (hopen.spells hspells (by decide)).parameter hparam'
    obtain ⟨params', d', hparams, hbares, hrest⟩ := hcarries' htext hopen₂ hd₂ hmore₂
    exact ⟨param' :: params', d', .more hspells hparam' hparams, congrArg₂ List.cons hbare hbares,
      hrest⟩

/-- The parameters are found again behind the opening parenthesis of a text that closes tightly. -/
theorem parameters_carry {params : List Param}
    (h : Items Parameter (fun d d' => d.Spells [','] d') c params c')
    (hc' : EndsWord c') : ∃ words, Covers words c c' ∧ ∀ ⦃text⦄ ⦃d₀ d : Cursor⦄ ⦃more⦄,
      ClosesTightly text → Unclosed text d₀ → d₀.Spells ['('] d →
        lexemes d.rest = words ++ [')'] :: more →
          ∃ params' d', Items Parameter (fun d d' => d.Spells [','] d') d params' d' ∧
            params'.map Param.bare = params.map Param.bare ∧ d'.Tight ∧
              lexemes d'.rest = [')'] :: more := by
  cases h with
  | none c =>
    exact ⟨[], .nil c, fun text d₀ d more htext hopen hspells hmore =>
      ⟨[], d, .none d, rfl, htext.tight (.inl rfl) hopen hspells hmore, hmore⟩⟩
  | some hparam hfurther =>
    have hbehind := hfurther.meets (fun hcomma => hcomma.meets rfl) hc'
    obtain ⟨letters, hname, hcarries⟩ := parameter_carries hparam hbehind
    obtain ⟨words, hwords, hcarries'⟩ := further_parameters_carry hfurther hc'
    refine ⟨letters :: words, hname.cons hwords, fun text d₀ d more htext hopen hspells hmore => ?_⟩
    obtain ⟨param', d₁, hparam', hbare, hd₁, hmore₁⟩ := hcarries hmore
    have hopen₁ := (hopen.spells hspells (by decide)).parameter hparam'
    obtain ⟨params', d', hparams, hbares, hrest⟩ := hcarries' htext hopen₁ hd₁ hmore₁
    exact ⟨param' :: params', d', .some hparam' hparams, congrArg₂ List.cons hbare hbares, hrest⟩

/-- Behind the keyword no word goes on. -/
theorem endsWord_of_keyword {c₂ : Cursor} (hmeets : c.Meets fun d => isNamePart d = false)
    (hblanks : Blanks c c₁) (hletters : IsName letters) (hspells : c₁.Spells letters c₂) :
    EndsWord c := by
  have hname : c₁.Meets fun d => d ≠ '.' := by
    refine (hletters.shows hspells).meets fun d hd => ?_
    rintro rfl
    cases hd
  have hpoint : c.Meets fun d => d ≠ '.' := hblanks.meets (fun d hd => by rintro rfl; cases hd) hname
  intro d rest hrest
  rw [isWordPart, hmeets d rest hrest, Bool.false_or, decide_eq_false_iff_not]
  exact hpoint d rest hrest

/-- A definition is made of lexemes, and a text of the same lexemes that closes tightly has the same
definition up to ranges. -/
theorem definition_carries {f : Function} (h : Definition c f c') (hend : c'.rest = []) :
    (∀ letters ∈ lexemes c.rest, IsLexeme letters) ∧ ∀ d : Cursor, ClosesTightly d.rest →
      lexemes d.rest = lexemes c.rest →
        ∃ g d', Definition d g d' ∧ g.bare = f.bare ∧ d'.rest = [] := by
  cases h with
  | @mk _ c₁ c₂ c₃ c₄ c₅ c₆ c₇ c₈ _ letters params body hblanks hkeyword hmeets hblanks' hletters
      hname hopening hitems hclosing hequals hbody =>
    obtain ⟨_, hspells, -⟩ := id hname
    have hfn : IsName ['f', 'n'] := ⟨'f', ['n'], rfl, rfl, List.forall_mem_singleton.2 rfl⟩
    obtain ⟨names, hnames, hparams⟩ := parameters_carry hitems (hclosing.meets rfl)
    obtain ⟨words, hwords, hadmits⟩ := expression_carries hbody (.of_rest_eq_nil hend)
    have hkey : Covers [['f', 'n']] c₁ c₂ :=
      hkeyword.token.covers_name hfn (endsWord_of_keyword hmeets hblanks' hletters hspells)
    have hbehind : Covers (names ++ [')'] :: ['='] :: words) c₅ c' :=
      hnames.append ((hclosing.covers_sign rfl).cons ((hequals.covers_sign rfl).cons hwords))
    have hhead : Covers (letters :: ['('] :: (names ++ [')'] :: ['='] :: words)) c₃ c' :=
      (hname.covers_name hletters (hopening.meets rfl)).cons
        ((hopening.token.covers_sign rfl).cons hbehind)
    have hcovers : Covers (['f', 'n'] :: letters :: ['('] :: (names ++ [')'] :: ['='] :: words)) c c' :=
      hblanks.covers.append (hkey.cons (hblanks'.covers.append hhead))
    have hlexemes := hcovers.lexemes_eq
    rw [hend] at hlexemes
    refine ⟨fun l hl => ?_, fun d htight hd => ?_⟩
    · rw [hlexemes, lexemes_nil, List.append_nil] at hl
      exact hcovers.lexical l hl
    · have hskip := d.blanks_skipBlanks
      have hstart : Unclosed d.rest d := ⟨[], rfl, List.not_mem_nil⟩
      rw [hlexemes, hskip.lexemes_eq, List.cons_append, List.cons_append, List.cons_append,
        List.append_assoc] at hd
      obtain ⟨d₂, hkeyword, hmore₂, hends⟩ := exists_spells_of_lexemes d.tight_skipBlanks hd
      have hskip₂ := d₂.blanks_skipBlanks
      obtain ⟨d₄, hname, hd₄, hmore₄⟩ :=
        exists_token_of_lexemes d₂.tight_skipBlanks (hskip₂.lexemes_eq.symm.trans hmore₂)
      obtain ⟨d₅, hopening, hmore₅, -⟩ := exists_spells_of_lexemes hd₄ hmore₄
      have hopen : Unclosed d.rest d₄ := by
        obtain ⟨_, hspells, hbehind⟩ := hname
        have hkey := (hstart.skip hskip).spells hkeyword (by decide)
        exact ((hkey.skip hskip₂).name hletters hspells).skip hbehind
      obtain ⟨params', d₆, hitems, hbares, hd₆, hmore₆⟩ := hparams htight hopen hopening hmore₅
      obtain ⟨d₇, hclosing, hd₇, hmore₇⟩ := exists_token_of_lexemes hd₆ hmore₆
      obtain ⟨d₈, hequals, hd₈, hmore₈⟩ := exists_token_of_lexemes hd₇ hmore₇
      obtain ⟨body', d', hbody, hbare, hd', hmore'⟩ := hadmits hd₈ hmore₈
      have hmeets : d₂.Meets fun e => isNamePart e = false :=
        (hends hfn.isWordPart).imp fun e he => (Bool.or_eq_false_iff.1 he).1
      refine ⟨_, d', .mk hskip hkeyword hmeets hskip₂ hletters hname hopening hitems hclosing hequals
        hbody, ?_, eq_nil_of_lexemes_eq_nil (Cursor.meets_iff.1 hd') hmore'⟩
      rw [Function.bare, Function.bare, hbares, hbare]

/-- A text with the same lexemes as one that is read is read as the same function up to ranges if it
closes tightly, and else it is refused. -/
theorem parse_of_lexemes_eq {source target : String} {f : Function} (h : parse source = .ok f)
    (heq : lexemes target.toList = lexemes source.toList) :
    (ClosesTightly target.toList → ∃ g, parse target = .ok g ∧ g.bare = f.bare) ∧
      (¬ClosesTightly target.toList → ∃ failure, parse target = .error failure) := by
  obtain ⟨stop, hread⟩ := Parser.parse_eq_ok_iff.1 h
  obtain ⟨hdefinition, hend⟩ := Parser.definition_of_read hread
  refine ⟨fun htight => ?_, fun hloose => ?_⟩
  · obtain ⟨g, stop', hg, hbare, hend'⟩ :=
      (definition_carries hdefinition hend).2 (.ofString target) htight heq
    exact ⟨g, Parser.parse_eq_ok_iff.2 ⟨stop', Parser.read_function hg hend'⟩, hbare⟩
  · cases hparse : parse target with
    | error failure => exact ⟨failure, rfl⟩
    | ok g =>
      obtain ⟨stop', hread'⟩ := Parser.parse_eq_ok_iff.1 hparse
      exact absurd (closesTightly_of_definition (Parser.definition_of_read hread').1) hloose

/-- A text that is read is made of names, numerals and signs. Blanks put between two of them leave
the function as it is, up to ranges, but in an open list, where they make the text be refused. -/
theorem parse_insert_blanks {f : Function}
    (h : parse (String.ofList (front ++ back)) = .ok f)
    (hplace : lexemes (front ++ back) = lexemes front ++ lexemes back)
    (hblanks : ∀ b ∈ blanks, Text.isBlank b = true) (hne : blanks ≠ []) :
    (∀ letters ∈ lexemes (front ++ back), IsLexeme letters) ∧
      (¬InOpenList front back → ∃ g,
        parse (String.ofList (front ++ blanks ++ back)) = .ok g ∧ g.bare = f.bare) ∧
      (InOpenList front back → ∃ failure,
        parse (String.ofList (front ++ blanks ++ back)) = .error failure) := by
  obtain ⟨stop, hread⟩ := Parser.parse_eq_ok_iff.1 h
  obtain ⟨hdefinition, hend⟩ := Parser.definition_of_read hread
  have hlexical := (definition_carries hdefinition hend).1
  have hclosed := closesTightly_of_definition hdefinition
  rw [Cursor.ofString, String.toList_ofList] at hlexical hclosed
  have heq : lexemes (String.ofList (front ++ blanks ++ back)).toList =
      lexemes (String.ofList (front ++ back)).toList := by
    rw [String.toList_ofList, String.toList_ofList, lexemes_insert hblanks hne, hplace]
  have hparse := parse_of_lexemes_eq h heq
  rw [String.toList_ofList] at hparse
  exact ⟨hlexical, fun hno => hparse.1 (closesTightly_insert hclosed hblanks hno),
    fun hopen => hparse.2 (not_closesTightly_insert hblanks hne hopen)⟩

/-- Blanks behind the last comma of the arguments of a call make no difference. -/
theorem parse_insert_blanks_argument :
    let f : Function := ⟨"f", [⟨"x", ⟨5, 6⟩⟩], .call "sin" [.ident "x" ⟨14, 15⟩] ⟨10, 17⟩, ⟨0, 17⟩⟩
    parse "fn f(x) = sin(x,)" = .ok f ∧
      ∃ g, parse "fn f(x) = sin(x,\n )" = .ok g ∧ g.bare = f.bare := by
  intro f
  have hread : Parser.function.read (.ofString "fn f(x) = sin(x,)") = some (f, ⟨17, []⟩) := by
    with_unfolding_all rfl
  have hparse := Parser.parse_eq_ok_iff.2 ⟨_, hread⟩
  have htext : String.ofList ("fn f(x) = sin(x,".toList ++ [')']) = "fn f(x) = sin(x,)" := by decide
  have htarget : String.ofList ("fn f(x) = sin(x,".toList ++ ['\n', ' '] ++ [')']) =
      "fn f(x) = sin(x,\n )" := by decide
  have hplace : lexemes ("fn f(x) = sin(x,".toList ++ [')']) =
      lexemes "fn f(x) = sin(x,".toList ++ lexemes [')'] := by decide
  have hblanks : ∀ b ∈ ['\n', ' '], Text.isBlank b = true := by simp [Text.isBlank]
  have hnot : ¬InOpenList "fn f(x) = sin(x,".toList [')'] := fun h => h.first (by decide)
  rw [← htext] at hparse
  have hinsert := (parse_insert_blanks hparse hplace hblanks (List.cons_ne_nil _ _)).2.1 hnot
  rw [htext] at hparse
  rw [htarget] at hinsert
  exact ⟨hparse, hinsert⟩

/-- A blank behind the last comma of the parameters is not accepted. -/
theorem parse_blank_in_parameters :
    (∃ f, parse "fn f(x,) = x" = .ok f) ∧
      lexemes "fn f(x,) = x".toList = lexemes "fn f(x,".toList ++ lexemes ") = x".toList ∧
        ∃ failure, parse "fn f(x, ) = x" = .error failure := by
  have hread : Parser.function.read (.ofString "fn f(x,) = x") =
      some (⟨"f", [⟨"x", ⟨5, 6⟩⟩], .ident "x" ⟨11, 12⟩, ⟨0, 12⟩⟩, ⟨12, []⟩) := by
    with_unfolding_all rfl
  have hparse := Parser.parse_eq_ok_iff.2 ⟨_, hread⟩
  refine ⟨⟨_, hparse⟩, by decide, (parse_of_lexemes_eq hparse (by decide)).2 fun h => ?_⟩
  exact h "fn f(x,".toList ' ' ") = x".toList (by decide) rfl ⟨.inr (by decide), by decide, by decide⟩

end StagedTangent.Source
