import KernelFusion.Rewrite.Driver

/-!
# Settings and fusion

`Settings` say which rules run and whether the region is checked after each rewrite; all is on unless
something turns it off. Settings can come from environment variables: a rule is off when its variable
has readable text, whatever the text, and checking is off when its variable reads `0` or `false`. A
value that is no text counts as unset.

`fuse` rewrites a region to a fixpoint of the rules that are on.
-/

namespace KernelFusion

/-- Which rules run, and whether the region is checked after each rewrite. -/
structure Settings where
  /-- Whether producers are inlined. -/
  inline : Bool := true
  /-- Whether outputs are rerouted. -/
  reroute : Bool := true
  /-- Whether roots are introduced. -/
  root : Bool := true
  /-- Whether the region is checked after each rewrite. -/
  verify : Bool := true
deriving DecidableEq

/-- The environment variables that are set, with the bytes they are set to. -/
structure Environment where
  bytes? : String → Option ByteArray

/-- The text of an environment variable, if it is set to one. -/
def Environment.text? (env : Environment) (name : String) : Option String :=
  (env.bytes? name).bind String.fromUTF8?

namespace Settings

/-- The settings that environment variables ask for. -/
def ofEnvironment (env : Environment) : Settings where
  inline := (env.text? "STENCIL_NO_INLINE").isNone
  reroute := (env.text? "STENCIL_NO_REROUTE").isNone
  root := (env.text? "STENCIL_NO_ROOT").isNone
  verify :=
    match env.text? "STENCIL_VERIFY" with
    | some value => value != "0" && value != "false"
    | none => true

/-- Whether no rule is on. -/
def isNoop (s : Settings) : Bool := !(s.inline || s.reroute || s.root)

/-- The rules that are on. -/
def rules (s : Settings) : List Rule :=
  (if s.inline then [.producerInlining] else []) ++
    (if s.reroute then [.outputRerouting] else []) ++
      (if s.root then [.rootIntroduction] else [])

/-- The rules that are on, as patterns. -/
def patterns {σ : Type} (s : Settings) : PatternSet σ :=
  s.rules.foldl (fun set rule => set.push rule.pattern) .empty

end Settings

/-- Rewrites a region to a fixpoint of the rules that are on. With none on it does nothing at all. -/
def fuse (settings : Settings) : EStateM Failure Region Tally := fun g =>
  let patterns : PatternSet Unit := settings.patterns
  if patterns.isEmpty then .ok {} g
  else
    match (Driver.run ⟨patterns, settings.verify⟩).run { region := g, state := () } with
    | .ok tally s => .ok tally s.region
    | .error e s => .error e s.region

end KernelFusion
