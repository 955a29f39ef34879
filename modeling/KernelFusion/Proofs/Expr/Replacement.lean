import KernelFusion.Expr.Basic
import KernelFusion.Proofs.Fallible

/-!
# Replacing reads

Replacing the reads of an expression is composed from its parts. `bindM_of_bindM` compares two ways to
get from an expression to another: in one step, or by way of an expression in the middle; when the ways
agree on every read, they agree on the whole expression. `bindM_mono` is the case where the first step
does nothing.

A replacement succeeds exactly when it does so at every read, and fails as it does at one of them; what is
read afterwards is read by what was put in the place of some read. The arguments of a computation are
replaced one by one (`bindM_compute_eq_ok_iff`), so these follow by `induct`.
-/

namespace KernelFusion.Expr

variable {ε ε' ρ τ υ : Type}

mutual

/-- If a replacement is made in two steps at every leaf, it is made in two steps on the whole expression: what is
replaced first succeeds afterwards where the replacement at once did. -/
theorem bindM_of_bindM {a : ρ → Except ε (Expr τ)} {f : ρ → Except ε' (Expr υ)}
    {h : τ → Except ε' (Expr υ)}
    (step : ∀ read mid out, a read = .ok mid → f read = .ok out → mid.bindM h = .ok out) :
    ∀ {e : Expr ρ} {mid out}, e.bindM a = .ok mid → e.bindM f = .ok out → mid.bindM h = .ok out
  | .read source, mid, out, first, whole => by
    rw [bindM] at first whole
    exact step source mid out first whole
  | .const literal, mid, out, first, whole => by
    rw [bindM, Except.ok.injEq] at first whole
    rw [← first, ← whole, bindM]
  | .compute op args, mid, out, first, whole => by
    rw [bindM, bind_eq_ok_iff] at first whole
    obtain ⟨mids, firstArgs, first⟩ := first
    obtain ⟨outs, wholeArgs, whole⟩ := whole
    rw [pure_eq_ok, Except.ok.injEq] at first whole
    rw [← first, ← whole, bindM, bindArgs_of_bindArgs step firstArgs wholeArgs, ok_bind, pure_eq_ok]

theorem bindArgs_of_bindArgs {a : ρ → Except ε (Expr τ)} {f : ρ → Except ε' (Expr υ)}
    {h : τ → Except ε' (Expr υ)}
    (step : ∀ read mid out, a read = .ok mid → f read = .ok out → mid.bindM h = .ok out) :
    ∀ {es : List (Expr ρ)} {mids outs}, bindArgs a es = .ok mids → bindArgs f es = .ok outs →
      bindArgs h mids = .ok outs
  | [], mids, outs, first, whole => by
    rw [bindArgs, Except.ok.injEq] at first whole
    rw [← first, ← whole, bindArgs]
  | e :: rest, mids, outs, first, whole => by
    simp only [bindArgs, bind_eq_ok_iff, pure_eq_ok, Except.ok.injEq] at first whole
    obtain ⟨mid, firstHead, mids', firstRest, rfl⟩ := first
    obtain ⟨out, wholeHead, outs', wholeRest, rfl⟩ := whole
    rw [bindArgs, bindM_of_bindM step firstHead wholeHead, ok_bind,
      bindArgs_of_bindArgs step firstRest wholeRest, ok_bind, pure_eq_ok]

end

mutual

/-- Replacing every read by itself changes nothing. -/
theorem bindM_read : ∀ e : Expr ρ, e.bindM (fun read => (.ok (.read read) : Except ε _)) = .ok e
  | .read source => by rw [bindM]
  | .const literal => by rw [bindM]
  | .compute op args => by rw [bindM, bindArgs_read args, ok_bind, pure_eq_ok]

theorem bindArgs_read : ∀ es : List (Expr ρ),
    bindArgs (fun read => (.ok (.read read) : Except ε _)) es = .ok es
  | [] => by rw [bindArgs]
  | e :: rest => by rw [bindArgs, bindM_read e, ok_bind, bindArgs_read rest, ok_bind, pure_eq_ok]

end

/-- Replacements that succeed where others do, with the same results, do so on whole expressions. -/
theorem bindM_mono {f h : ρ → Except ε' (Expr υ)}
    (agree : ∀ read out, f read = .ok out → h read = .ok out) {e : Expr ρ} {out : Expr υ}
    (whole : e.bindM f = .ok out) : e.bindM h = .ok out := by
  refine bindM_of_bindM (ε := ε') ?_ (bindM_read e) whole
  intro read mid out' same found
  rw [← Except.ok.inj same, bindM]
  exact agree read out' found

/-! ## One argument after another -/

theorem bindArgs_eq_mapM {f : ρ → Except ε (Expr τ)} {es : List (Expr ρ)} :
    bindArgs f es = es.mapM (bindM f) := by
  induction es with
  | nil => rw [bindArgs, List.mapM_nil, pure_eq_ok]
  | cons e rest ih => rw [bindArgs, List.mapM_cons, ih]

theorem mem_readsOfArgs {args : List (Expr ρ)} {source : ρ} :
    source ∈ readsOfArgs args ↔ ∃ arg ∈ args, source ∈ arg.reads := by
  induction args with
  | nil => simp [readsOfArgs]
  | cons arg rest ih => simp [readsOfArgs, ih]

/-- What holds of a computation when it holds of its arguments holds of every expression. -/
theorem induct {motive : Expr ρ → Prop} (read : ∀ source, motive (.read source))
    (const : ∀ literal, motive (.const literal))
    (compute : ∀ op args, (∀ arg ∈ args, motive arg) → motive (.compute op args)) :
    ∀ e, motive e
  | .read source => read source
  | .const literal => const literal
  | .compute op args => compute op args fun arg _ => induct read const compute arg

variable {f : ρ → Except ε (Expr τ)} {e : Expr ρ} {out : Expr τ} {source : ρ} {source' : τ}
  {op : Operator} {args : List (Expr ρ)}

/-- Replacing in an operation succeeds if it does in every argument, and keeps the operation. -/
theorem bindM_compute_eq_ok_iff : (Expr.compute op args).bindM f = .ok out ↔
    ∃ outs, List.Forall₂ (fun arg out => arg.bindM f = .ok out) args outs ∧ out = .compute op outs := by
  simp only [bindM, bind_eq_ok_iff, bindArgs_eq_mapM, mapM_eq_ok_iff, pure_eq_ok, Except.ok.injEq,
    eq_comm (a := out)]

/-! ## When a replacement succeeds -/

/-- A replacement succeeds when it does so for every read. -/
theorem exists_bindM_eq_ok (each : ∀ read ∈ e.reads, ∃ out, f read = .ok out) :
    ∃ out, e.bindM f = .ok out := by
  induction e using induct with
  | read source =>
    rw [reads, List.forall_mem_singleton] at each
    rwa [bindM]
  | const literal => exact ⟨.const literal, by rw [bindM]⟩
  | compute op args ih =>
    rw [reads] at each
    have replaced (arg : Expr ρ) (member : arg ∈ args) : ∃ out, arg.bindM f = .ok out ∧ True := by
      rcases ih arg member fun read isRead => each read (mem_readsOfArgs.mpr ⟨arg, member, isRead⟩) with
        ⟨out, replaced⟩
      exact ⟨out, replaced, trivial⟩
    rcases exists_mapM_eq_ok replaced with ⟨outs, replaced, -⟩
    exact ⟨.compute op outs, bindM_compute_eq_ok_iff.mpr ⟨outs, mapM_eq_ok_iff.mp replaced, rfl⟩⟩

/-- A replacement that succeeds does so for every read. -/
theorem exists_of_bindM_eq_ok (replaced : e.bindM f = .ok out) (member : source ∈ e.reads) :
    ∃ out', f source = .ok out' := by
  induction e using induct generalizing out with
  | read source' =>
    rw [reads, List.mem_singleton] at member
    rw [bindM] at replaced
    exact ⟨out, member ▸ replaced⟩
  | const literal =>
    rw [reads] at member
    cases member
  | compute op args ih =>
    rw [reads, mem_readsOfArgs] at member
    rcases member with ⟨arg, isArg, member⟩
    rcases bindM_compute_eq_ok_iff.mp replaced with ⟨outs, parts, -⟩
    rcases exists_right_of_mem parts isArg with ⟨out', -, part⟩
    exact ih arg isArg part member

/-- A replacement that fails does so at some read. -/
theorem exists_of_bindM_eq_error {failure : ε} (failed : e.bindM f = .error failure) :
    ∃ read ∈ e.reads, f read = .error failure := by
  induction e using induct with
  | read source =>
    rw [bindM] at failed
    exact ⟨source, by rw [reads]; exact List.mem_cons_self, failed⟩
  | const literal =>
    rw [bindM] at failed
    cases failed
  | compute op args ih =>
    rw [bindM, bindArgs_eq_mapM] at failed
    cases replaced : args.mapM (bindM f) with
    | ok outs =>
      rw [replaced, ok_bind, pure_eq_ok] at failed
      cases failed
    | error failure' =>
      rw [replaced, error_bind, Except.error.injEq] at failed
      rcases exists_of_mapM_eq_error replaced with ⟨arg, isArg, failedAt⟩
      rcases ih arg isArg (failed ▸ failedAt) with ⟨read, member, failedRead⟩
      exact ⟨read, by rw [reads]; exact mem_readsOfArgs.mpr ⟨arg, isArg, member⟩, failedRead⟩

/-! ## What a replacement leaves -/

/-- What is read afterwards is read by what was put in the place of some read. -/
theorem exists_of_mem_reads_bindM (replaced : e.bindM f = .ok out) (member : source' ∈ out.reads) :
    ∃ read ∈ e.reads, ∃ out', f read = .ok out' ∧ source' ∈ out'.reads := by
  induction e using induct generalizing out with
  | read source =>
    rw [bindM] at replaced
    exact ⟨source, by rw [reads]; exact List.mem_cons_self, out, replaced, member⟩
  | const literal =>
    rw [bindM, Except.ok.injEq] at replaced
    rw [← replaced, reads] at member
    cases member
  | compute op args ih =>
    rcases bindM_compute_eq_ok_iff.mp replaced with ⟨outs, parts, rfl⟩
    rw [reads, mem_readsOfArgs] at member
    rcases member with ⟨out', isOut, member⟩
    rcases exists_left_of_mem parts isOut with ⟨arg, isArg, part⟩
    rcases ih arg isArg part member with ⟨read, isRead, found⟩
    exact ⟨read, by rw [reads]; exact mem_readsOfArgs.mpr ⟨arg, isArg, isRead⟩, found⟩

/-- Every computation has as many arguments as its operator takes. -/
inductive Saturated : Expr ρ → Prop
  | read {source : ρ} : Saturated (.read source)
  | const {literal : Literal} : Saturated (.const literal)
  | compute {op : Operator} {args : List (Expr ρ)} : args.length = op.arity →
    (∀ arg ∈ args, Saturated arg) → Saturated (.compute op args)

/-- A replacement by saturated expressions keeps an expression saturated. -/
theorem Saturated.bindM (saturated : e.Saturated) (replaced : e.bindM f = .ok out)
    (each : ∀ read ∈ e.reads, ∀ out', f read = .ok out' → out'.Saturated) : out.Saturated := by
  induction saturated generalizing out with
  | @read source =>
    rw [Expr.bindM] at replaced
    rw [reads, List.forall_mem_singleton] at each
    exact each out replaced
  | const =>
    rw [Expr.bindM, Except.ok.injEq] at replaced
    exact replaced ▸ .const
  | @compute op args arity _ ih =>
    rcases bindM_compute_eq_ok_iff.mp replaced with ⟨outs, parts, rfl⟩
    rw [reads] at each
    refine .compute (parts.length_eq ▸ arity) fun out' isOut => ?_
    rcases exists_left_of_mem parts isOut with ⟨arg, isArg, part⟩
    exact ih arg isArg part fun read isRead =>
      each read (mem_readsOfArgs.mpr ⟨arg, isArg, isRead⟩)

end KernelFusion.Expr
