import StagedTangent.Compilation
import StagedTangent.Proofs.Derivative.Differentiability
import StagedTangent.Proofs.Source.Admissible
import StagedTangent.Proofs.Source.Reading
import StagedTangent.Proofs.Staging.Layout

/-!
# How compiling can end

Each stage of compiling hands a well-formed program to the next, so none of them ever reports a
defect: `compile_outcome` lists the ways in which compiling ends. Whether a derivative is missing is
read off the source text, where an `abs` stands in the way if the parameter occurs under it. Only an
order whose derivatives do not fit into a block of memory breaks compiling off.
-/

namespace StagedTangent

open Source

/-! ## Parameters -/

namespace Source.Function

variable {f : Source.Function} {p : Program}

/-- A function with a program has parameters, of different names. -/
theorem params_of_toProgram (h : f.toProgram = .ok p) :
    f.params ≠ [] ∧ (f.params.map Param.name).Nodup :=
  have hadmissible := exists_toProgram_iff.1 ⟨p, h⟩
  ⟨hadmissible.params, hadmissible.nodup⟩

/-- The result of the program of a function depends on the argument of a parameter as the body
depends on its name. -/
theorem mirrors_body (h : f.toProgram = .ok p) {position : Nat} {param : Param}
    (hparam : f.params[position]? = some param) :
    p.arguments[position]? = some position ∧
      p.Mirrors position param.name p.result f.body := by
  obtain ⟨result, r, hrecord, rfl, hwell⟩ := exists_record h
  have hposition : position < f.params.length := (List.getElem?_eq_some_iff.1 hparam).1
  have harguments : (r.toProgram result).arguments = List.range f.params.length :=
    (arguments_toProgram hrecord).1
  have hlisted : ∀ {place : Nat}, place < f.params.length →
      (r.toProgram result).arguments[place]? = some place := by
    intro place hplace
    rw [harguments, List.getElem?_range hplace]
  refine ⟨hlisted hposition, ?_⟩
  refine Program.mirrors_record (hwell.regular.argument_at (hlisted hposition)) ?_ f.body
    _ _ _ hrecord ?_
  · intro other node hlookup
    obtain ⟨hlt, hname⟩ := name_of_lookup hlookup
    refine ⟨⟨node, hwell.regular.argument_at (hlisted hlt)⟩, ?_, ?_⟩
    · rintro rfl
      rw [hparam] at hname
      exact (Option.some.inj hname).symm
    · rintro rfl
      have hboth : (f.params.map Param.name)[node]? = (f.params.map Param.name)[position]? := by
        rw [List.getElem?_map, List.getElem?_map, hname, hparam]
        rfl
      have hlt' : node < (f.params.map Param.name).length := by rwa [List.length_map]
      exact (List.getElem?_inj hlt' (params_of_toProgram h).2).1 hboth
  · rw [Recorder.nodes_toProgram]

end Source.Function

theorem eq_noSuchParameter_of_position {f : Source.Function} {choice : Option String}
    {e : CompileError} (h : parameterPosition f choice = .error e) :
    ∃ name, e = .noSuchParameter name := by
  unfold parameterPosition at h
  split at h
  · cases h
  · split at h <;> cases h
    exact ⟨_, rfl⟩

/-- The parameter at the position that is differentiated with respect to. -/
theorem exists_param_of_position {f : Source.Function} {choice : Option String} {position : Nat}
    (hparams : f.params ≠ []) (h : parameterPosition f choice = .ok position) :
    ∃ param, f.params[position]? = some param ∧ ∀ name ∈ choice, param.name = name := by
  cases choice with
  | none =>
    cases h
    exact ⟨f.params.head hparams, by rw [← List.head?_eq_getElem?, List.head?_eq_some_head hparams],
      nofun⟩
  | some name =>
    unfold parameterPosition at h
    dsimp only at h
    split at h
    · next found hfound =>
      obtain rfl : found = position := Except.ok.inj h
      obtain ⟨hlt, hname, -⟩ := List.findIdx?_eq_some_iff_getElem.1 hfound
      refine ⟨f.params[found], List.getElem?_eq_getElem hlt, ?_⟩
      rintro _ ⟨⟩
      exact of_decide_eq_true hname
    · cases h

/-! ## Derivatives and code -/

namespace Program

variable {p : Program} {x position : Nat}

/-- Something stands in the way of the derivatives exactly if the result takes an absolute value of
the argument. -/
theorem exists_blocks_iff_takesAbsoluteOf (hp : p.Regular) (hx : p.arguments[position]? = some x) :
    (∃ n < p.nodes.length, p.Blocks x n) ↔ p.TakesAbsoluteOf x p.result := by
  constructor
  · rintro ⟨n, -, hblocks⟩
    obtain ⟨⟨operands, hnode⟩, hreached, hneeded⟩ :=
      (obstructs_iff_blocks hp (hp.argument_at hx)).2 hblocks
    exact ⟨n, operands, ((neededFor_iff hp).1 hneeded).2, hnode, ((reachedFrom_iff hp).1 hreached).2⟩
  · rintro ⟨n, operands, hneeded, hnode, hpath⟩
    have hlt : n < p.nodes.length := (List.getElem?_eq_some_iff.1 hnode).1
    refine ⟨n, hlt, (obstructs_iff_blocks hp (hp.argument_at hx)).1 ⟨⟨operands, hnode⟩, ?_, ?_⟩⟩
    · exact (reachedFrom_iff hp).2 ⟨hlt, hpath⟩
    · exact (neededFor_iff hp).2 ⟨hp.result_lt, hneeded⟩

/-- Either the chain of derivatives fails for an `abs` or it goes through with well-formed
programs. -/
theorem chain_dichotomy (h : p.WellFormed) (hx : p.arguments[position]? = some x) (n : Nat) :
    ((1 ≤ n ∧ p.TakesAbsoluteOf x p.result) ∧
      p.chain position n = .error (.missingRule .abs 1)) ∨
    (¬ (1 ≤ n ∧ p.TakesAbsoluteOf x p.result) ∧
      ∃ ds, p.chain position n = .ok ds ∧ ∀ d ∈ ds, d.WellFormed) := by
  rcases Nat.eq_zero_or_pos n with rfl | hn
  · exact .inr ⟨fun h => absurd h.1 (by decide), [], rfl, nofun⟩
  rw [and_iff_right (Nat.succ_le_of_lt hn), ← exists_blocks_iff_takesAbsoluteOf h.regular hx]
  rcases derivative_dichotomy h hx with ⟨hblocks, herror⟩ | ⟨hfree, -⟩
  · exact .inl ⟨hblocks, chain_eq_error hn herror⟩
  · obtain ⟨ds, hds, -, hwell⟩ := exists_chain h hx
      (fun node hblocks => hfree node hblocks.lt_length hblocks) n
    exact .inr ⟨fun ⟨node, hlt, hblocks⟩ => hfree node hlt hblocks, ds, hds, hwell⟩

/-- The last of a chain of well-formed programs has code. -/
theorem exists_code_of_chain (h : p.WellFormed) {ds : List Program} (hds : ∀ d ∈ ds, d.WellFormed) :
    ∃ code, (ds.getLastD p).toCode = .ok code := by
  have hwell : (ds.getLastD p).WellFormed := by
    cases hlast : ds.getLast? with
    | none => rwa [List.getLastD_eq_getLast?, hlast]
    | some d =>
      rw [List.getLastD_eq_getLast?, hlast]
      exact hds d (List.mem_of_getLast? hlast)
  obtain ⟨scope, final, -, hcode⟩ := exists_toCode hwell
  exact ⟨_, hcode⟩

end Program

/-! ## Compiling -/

section Program

variable {source : String} {options : CompileOptions} {f : Source.Function} {p : Program}
  {position : Nat} (hparse : Source.parse source = .ok f) (hrecord : f.toProgram = .ok p)
  (hposition : parameterPosition f options.parameter = .ok position)

include hparse hrecord hposition

/-- What is left to do once the text is a program and the parameter is known. -/
theorem compile_eq :
    compile source options = (do
      let derivatives ← (p.derivatives position options.order).mapError .ofChain
      let code ← (derivatives.getLastD p).toCode.mapError .placement
      return ⟨f, p, derivatives, code⟩) := by
  rw [compile, hparse, Except.mapError, ok_bind, hrecord, Except.mapError, ok_bind, hposition,
    ok_bind]

/-- Then it breaks off if the derivatives do not fit into a block of memory. -/
theorem compile_eq_fault (hlong : blockBound ≤ options.order * Program.bytes) :
    compile source options = .error (.fault (.capacity options.order Program.bytes)) := by
  rw [compile_eq hparse hrecord hposition, Program.derivatives_eq_fault hlong]
  rfl

/-- If they fit, it succeeds, or fails for an `abs` that the parameter occurs under. -/
theorem compile_dichotomy {param : Source.Param} (hparam : f.params[position]? = some param)
    (hfits : options.order * Program.bytes < blockBound) :
    ((1 ≤ options.order ∧ f.body.TakesAbsoluteOf param.name) ∧
      compile source options = .error (.derivative (.missingRule .abs 1))) ∨
    (¬ (1 ≤ options.order ∧ f.body.TakesAbsoluteOf param.name) ∧
      ∃ c, compile source options = .ok c) := by
  obtain ⟨result, r, -, -, hwell⟩ := Function.exists_record hrecord
  obtain ⟨hx, hmirrors⟩ := Function.mirrors_body hrecord hparam
  rw [compile_eq hparse hrecord hposition, Program.derivatives_eq_chain hfits, ← hmirrors.absolute]
  rcases Program.chain_dichotomy hwell hx options.order with
    ⟨htakes, herror⟩ | ⟨hfree, ds, hds, hall⟩
  · rw [herror]
    exact .inl ⟨htakes, rfl⟩
  · obtain ⟨code, hcode⟩ := Program.exists_code_of_chain hwell hall
    refine .inr ⟨hfree, ⟨f, p, ds, code⟩, ?_⟩
    rw [hds, Except.mapError, Except.mapError, ok_bind, hcode]
    rfl

end Program

/-- Compiling stops at the text, at the program or at the parameter, or has all three. -/
theorem compile_stages (source : String) (options : CompileOptions) :
    (∃ failure, compile source options = .error (.parse failure)) ∨
      (∃ e, (∀ defect, e ≠ .illFormed defect) ∧ compile source options = .error (.record e)) ∨
      (∃ name, compile source options = .error (.noSuchParameter name)) ∨
      ∃ f p position, Source.parse source = .ok f ∧ f.toProgram = .ok p ∧
        parameterPosition f options.parameter = .ok position := by
  cases hparse : Source.parse source with
  | error failure =>
    refine .inl ⟨failure, ?_⟩
    rw [compile, hparse]
    rfl
  | ok f =>
    cases hrecord : f.toProgram with
    | error e =>
      refine .inr (.inl ⟨e, ?_, ?_⟩)
      · rintro defect rfl
        exact f.toProgram_ne_illFormed defect hrecord
      · rw [compile, hparse, Except.mapError, ok_bind, hrecord]
        rfl
    | ok p =>
      cases hposition : parameterPosition f options.parameter with
      | error e =>
        obtain ⟨name, rfl⟩ := eq_noSuchParameter_of_position hposition
        refine .inr (.inr (.inl ⟨name, ?_⟩))
        rw [compile, hparse, Except.mapError, ok_bind, hrecord, Except.mapError, ok_bind, hposition]
        rfl
      | ok position => exact .inr (.inr (.inr ⟨f, p, position, rfl, hrecord, hposition⟩))

/-- Compiling succeeds, or the text cannot be read or makes no sense as a program, or there is no
such parameter, or there is no derivative because of an `abs`, or so many derivatives are asked for
that they do not fit into a block of memory; it never fails for a defect of a program or of its code,
for a missing argument or for another rule. Once the text is a program and the parameter is known, it
breaks off exactly if the derivatives do not fit. If they fit, it fails exactly if a derivative is
asked for and the body calls `abs` of something in which the parameter occurs. -/
theorem compile_outcome (source : String) (options : CompileOptions) :
    ((∃ c, compile source options = .ok c) ∨
      (∃ failure, compile source options = .error (.parse failure)) ∨
      (∃ e, (∀ defect, e ≠ .illFormed defect) ∧ compile source options = .error (.record e)) ∨
      (∃ name, compile source options = .error (.noSuchParameter name)) ∨
      compile source options = .error (.derivative (.missingRule .abs 1)) ∨
      (blockBound ≤ options.order * Program.bytes ∧
        compile source options = .error (.fault (.capacity options.order Program.bytes)))) ∧
    ∀ f p position, Source.parse source = .ok f → f.toProgram = .ok p →
      parameterPosition f options.parameter = .ok position →
      (blockBound ≤ options.order * Program.bytes →
        compile source options = .error (.fault (.capacity options.order Program.bytes))) ∧
      (options.order * Program.bytes < blockBound →
        ∃ param, f.params[position]? = some param ∧ (∀ name ∈ options.parameter, param.name = name) ∧
          (compile source options = .error (.derivative (.missingRule .abs 1)) ↔
            1 ≤ options.order ∧ f.body.TakesAbsoluteOf param.name) ∧
          ((∃ c, compile source options = .ok c) ↔
            ¬ (1 ≤ options.order ∧ f.body.TakesAbsoluteOf param.name))) := by
  refine ⟨?_, fun f p position hparse hrecord hposition =>
    ⟨compile_eq_fault hparse hrecord hposition, fun hfits => ?_⟩⟩
  · rcases compile_stages source options with hparse | hrecord | hname |
      ⟨f, p, position, hparse, hrecord, hposition⟩
    · exact .inr (.inl hparse)
    · exact .inr (.inr (.inl hrecord))
    · exact .inr (.inr (.inr (.inl hname)))
    · rcases Nat.lt_or_ge (options.order * Program.bytes) blockBound with hfits | hlong
      · obtain ⟨param, hparam, -⟩ :=
          exists_param_of_position (Function.params_of_toProgram hrecord).1 hposition
        rcases compile_dichotomy hparse hrecord hposition hparam hfits with ⟨-, herror⟩ | ⟨-, hok⟩
        · exact .inr (.inr (.inr (.inr (.inl herror))))
        · exact .inl hok
      · have hfault := compile_eq_fault hparse hrecord hposition hlong
        exact .inr (.inr (.inr (.inr (.inr ⟨hlong, hfault⟩))))
  · obtain ⟨param, hparam, hname⟩ :=
      exists_param_of_position (Function.params_of_toProgram hrecord).1 hposition
    refine ⟨param, hparam, hname, ?_⟩
    rcases compile_dichotomy hparse hrecord hposition hparam hfits with
      ⟨htakes, herror⟩ | ⟨hfree, c, hok⟩
    · rw [herror]
      exact ⟨iff_of_true rfl htakes, iff_of_false nofun (not_not_intro htakes)⟩
    · rw [hok]
      exact ⟨iff_of_false nofun hfree, iff_of_true ⟨c, rfl⟩ hfree⟩

theorem compile_outcome_abs :
    compile "fn f(x,y)=x*abs(y)" ⟨2, some "y"⟩ = .error (.derivative (.missingRule .abs 1)) ∧
      ∃ c, compile "fn f(x,y)=x*abs(y)" ⟨2, some "x"⟩ = .ok c := by
  let y : Expr := .ident "y" ⟨16, 17⟩
  let body : Expr := .binary .mul (.ident "x" ⟨10, 11⟩) (.call "abs" [y] ⟨12, 18⟩) ⟨10, 18⟩
  let f : Source.Function := ⟨"f", [⟨"x", ⟨5, 6⟩⟩, ⟨"y", ⟨7, 8⟩⟩], body, ⟨0, 18⟩⟩
  have hparse : Source.parse "fn f(x,y)=x*abs(y)" = .ok f :=
    Parser.parse_eq_ok_iff.2 ⟨⟨18, []⟩, by with_unfolding_all rfl⟩
  obtain ⟨p, hrecord⟩ : ∃ p, f.toProgram = .ok p := ⟨_, rfl⟩
  have habs : body.TakesAbsoluteOf "y" :=
    ⟨y, ⟨12, 18⟩, .child (.tail _ (.head _)) (.self _), ⟨16, 17⟩, .self _⟩
  have hnot : ¬ body.TakesAbsoluteOf "x" := by
    have hmentions : ¬ y.Mentions "x" := by
      simp [y, Expr.mentions_iff (e := .ident _ _), Expr.children]
    have hleaf : ∀ name span, ¬ (Expr.ident name span).TakesAbsoluteOf "x" := fun name span => by
      simp [Expr.takesAbsoluteOf_iff (e := .ident _ _), Expr.children]
    have hcall : ¬ (Expr.call "abs" [y] ⟨12, 18⟩).TakesAbsoluteOf "x" := by
      simpa [Expr.takesAbsoluteOf_iff (e := .call _ _ _), Expr.children, hmentions] using hleaf _ _
    simpa [body, Expr.takesAbsoluteOf_iff (e := .binary _ _ _ _), Expr.children, hcall]
      using hleaf _ _
  obtain ⟨_, hy, -, hfails, -⟩ :=
    ((compile_outcome _ ⟨2, some "y"⟩).2 f p 1 hparse hrecord rfl).2 (by decide)
  obtain ⟨_, hx, -, -, hsucceeds⟩ :=
    ((compile_outcome _ ⟨2, some "x"⟩).2 f p 0 hparse hrecord rfl).2 (by decide)
  cases hy
  cases hx
  exact ⟨hfails.2 ⟨by decide, habs⟩, hsucceeds.2 fun h => hnot h.2⟩

/-- If as many derivatives are asked for as can be, compiling breaks off, with respect to an argument
that is under an `abs` too. -/
theorem compile_breaks_off :
    ¬ ((∃ c, compile "fn f(x)=abs(x)" ⟨wordBound - 1, none⟩ = .ok c) ∨
      (∃ failure, compile "fn f(x)=abs(x)" ⟨wordBound - 1, none⟩ = .error (.parse failure)) ∨
      (∃ e, compile "fn f(x)=abs(x)" ⟨wordBound - 1, none⟩ = .error (.record e)) ∨
      (∃ name, compile "fn f(x)=abs(x)" ⟨wordBound - 1, none⟩ = .error (.noSuchParameter name)) ∨
      compile "fn f(x)=abs(x)" ⟨wordBound - 1, none⟩ =
        .error (.derivative (.missingRule .abs 1))) := by
  let f : Source.Function := ⟨"f", [⟨"x", ⟨5, 6⟩⟩], .call "abs" [.ident "x" ⟨12, 13⟩] ⟨8, 14⟩, ⟨0, 14⟩⟩
  have hparse : Source.parse "fn f(x)=abs(x)" = .ok f :=
    Parser.parse_eq_ok_iff.2 ⟨⟨14, []⟩, by with_unfolding_all rfl⟩
  obtain ⟨p, hrecord⟩ : ∃ p, f.toProgram = .ok p := ⟨_, rfl⟩
  have hfault : compile "fn f(x)=abs(x)" ⟨wordBound - 1, none⟩ =
      .error (.fault (.capacity (wordBound - 1) Program.bytes)) :=
    compile_eq_fault hparse hrecord rfl (by decide)
  rw [hfault]
  rintro (⟨_, h⟩ | ⟨_, h⟩ | ⟨_, h⟩ | ⟨_, h⟩ | h) <;> cases h

end StagedTangent
