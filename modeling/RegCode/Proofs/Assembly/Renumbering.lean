import RegCode.Proofs.Assembly.Formed

/-! Reading up to line numbers. Numbers of lines are kept with what is read and stand in faults, but
decide nothing: texts with the same lines are read alike. -/
namespace RegCode

/-! ### Without line numbers -/

def Instruction.unlined (i : Instruction) : Instruction := { i with line := 0 }

def Method.unlined (m : Method) : Method := { m with line := 0, code := m.code.map (·.unlined) }

def Method.heading (m : Method) : Method :=
  { m with line := 0, registers := 0, code := [], tries := [], overlaps := [] }

def Class.shown (hidden : Nat → Bool) (c : Class) : Class :=
  { c with line := 0, methods := c.methods.mapIdx fun j m => if hidden j then m.heading else m.unlined }

def shownClasses (hidden : Nat → Nat → Bool) (cs : List Class) : List Class :=
  cs.mapIdx fun i c => c.shown (hidden i)

namespace Assembly

open Text

def Payload.unlined (p : Payload) : Payload := { p with line := 0 }

def Placed.unlined (p : Placed) : Placed := { p with inst := p.inst.unlined }

def CatchLine.unlined (c : CatchLine) : CatchLine := { c with line := 0 }

def unlinedPayloads (ps : List (String × Payload)) : List (String × Payload) :=
  ps.map fun p => (p.1,p.2.unlined)

def Draft.unlined (d : Draft) : Draft :=
  { d with
    method := d.method.unlined
    placed := d.placed.map (·.unlined)
    payloads := unlinedPayloads d.payloads
    catches := d.catches.map (·.unlined) }

def Mode.unlined : Mode → Mode
  | .payload names p => .payload names p.unlined
  | mode => mode

def Scope.unlined (s : Scope) : Scope := { s with payloads := unlinedPayloads s.payloads }

/-! ### Works that do alike -/

def Twins {α β : Type} (x : Noting α) (y : Noting β) (R : α → β → Prop) : Prop :=
  ∀ fs gs, R (x.run fs).1 (y.run gs).1

namespace Twins

variable {α β γ δ : Type} {x : Noting α} {y : Noting β} {R : α → β → Prop} {S : γ → δ → Prop}

theorem pure {a : α} {b : β} (related : R a b) : Twins (Pure.pure a) (Pure.pure b) R := fun _ _ => related

theorem bind {f : α → Noting γ} {g : β → Noting δ} (first : Twins x y R)
    (later : ∀ a b, R a b → Twins (f a) (g b) S) : Twins (x >>= f) (y >>= g) S :=
  fun fs gs => later _ _ (first fs gs) _ _

theorem after {f : α → Noting γ} {g : β → Noting δ} (later : ∀ a b, Twins (f a) (g b) S) :
    Twins (x >>= f) (y >>= g) S := fun _ _ => later _ _ _ _

theorem mono {R' : α → β → Prop} (twins : Twins x y R) (weaker : ∀ a b, R a b → R' a b) : Twins x y R' :=
  fun fs gs => weaker _ _ (twins fs gs)

end Twins

variable {s s' : Scope} {i j : Instruction} {line line' : Nat}

/-! ### Values -/

theorem noteLiteralTwins (text : String) : Twins (noteLiteral line text) (noteLiteral line' text) Eq := by
  unfold noteLiteral
  split
  · exact .pure rfl
  · exact .after fun _ _ => .pure rfl

theorem noteLiteralsTwins (texts : List String) :
    Twins (noteLiterals line texts) (noteLiterals line' texts) Eq := by
  induction texts with
  | nil => exact .pure rfl
  | cons text texts ih =>
    refine (noteLiteralTwins text).bind fun v _ same => ih.bind fun vs _ same' => .pure ?_
    rw [same,same']

theorem readCountTwins (cause : ReadCause) (text : String) :
    Twins (readCount line cause text) (readCount line' cause text) Eq := by
  unfold readCount
  dsimp only
  split
  · exact .after fun _ _ => .pure rfl
  · exact .pure rfl

theorem openPayloadTwins (kind : PayloadKind) (rest : String) :
    Twins (openPayload line kind rest) (openPayload line' kind rest) fun p q => p.unlined = q.unlined := by
  cases kind with
  | packedSwitch => exact (noteLiteralTwins rest).bind fun v _ same => .pure (same ▸ rfl)
  | sparseSwitch => exact .pure rfl
  | arrayData => exact (readCountTwins _ rest).bind fun v _ same => .pure (same ▸ rfl)

theorem addLineTwins {p q : Payload} (same : p.unlined = q.unlined) {l l' : Line} (text : l.text = l'.text) :
    Twins (p.addLine l) (q.addLine l') fun p q => p.unlined = q.unlined := by
  obtain ⟨n,rfl⟩ : ∃ n, q = { p with line := n } := by
    refine ⟨q.line,?_⟩
    have := congrArg (fun r : Payload => { r with line := q.line }) same
    exact this.symm
  unfold Payload.addLine
  rw [← text]
  rcases p with ⟨kind,_,_,_,_,_,_⟩
  cases kind with
  | packedSwitch => exact .pure rfl
  | sparseSwitch =>
    dsimp only
    split
    · exact .after fun _ _ => .pure rfl
    · exact (noteLiteralTwins _).bind fun k _ same => .pure (same ▸ rfl)
  | arrayData => exact (noteLiteralsTwins _).bind fun vs _ same => .pure (same ▸ rfl)

/-! ### Operands -/

theorem registerTwins (same : s.unlined = s'.unlined) (text : String) :
    Twins (s.register line text) (s'.register line' text) Eq := by
  have registers : s.registers = s'.registers := congrArg (·.registers) same
  have ins : s.ins = s'.ins := congrArg (·.ins) same
  unfold Scope.register
  rw [registers,ins]
  extract_lets number
  cases number with
  | none => exact .after fun _ _ => .pure rfl
  | some n => exact .pure rfl

theorem registerAllTwins (same : s.unlined = s'.unlined) (texts : List String) :
    Twins (s.registerAll line texts) (s'.registerAll line' texts) Eq := by
  induction texts with
  | nil => exact .pure rfl
  | cons text texts ih =>
    refine (registerTwins same text).bind fun r _ first => ih.bind fun rs _ later => .pure ?_
    rw [first,later]

theorem labelTwins (same : s.unlined = s'.unlined) (text : String) :
    Twins (s.label line text) (s'.label line' text) Eq := by
  have labels : s.labels = s'.labels := congrArg (·.labels) same
  unfold Scope.label
  rw [labels]
  dsimp only
  split
  · exact .pure rfl
  · exact .after fun _ _ => .pure rfl

theorem labelAllTwins (same : s.unlined = s'.unlined) (texts : List String) :
    Twins (s.labelAll line texts) (s'.labelAll line' texts) Eq := by
  induction texts with
  | nil => exact .pure rfl
  | cons text texts ih =>
    refine (labelTwins same text).bind fun r _ first => ih.bind fun rs _ later => .pure ?_
    rw [first,later]

theorem payloadUnlined (s : Scope) (kind : PayloadKind) (name : String) :
    s.unlined.payload? kind name = (s.payload? kind name).map (·.unlined) := by
  have looked : (unlinedPayloads s.payloads).lookup name = (s.payloads.lookup name).map (·.unlined) := by
    generalize s.payloads = ps
    induction ps with
    | nil => rfl
    | cons p ps ih =>
      unfold unlinedPayloads at ih ⊢
      rw [List.map_cons,List.lookup_cons,List.lookup_cons,ih]
      split <;> rfl
  unfold Scope.payload?
  rw [show s.unlined.payloads = unlinedPayloads s.payloads from rfl,looked]
  cases s.payloads.lookup name with
  | none => rfl
  | some p =>
    rw [Option.map_some,Option.filter_some,Option.filter_some]
    split <;> simp_all [Payload.unlined]

theorem payloadTwins (same : s.unlined = s'.unlined) (kind : PayloadKind) (name : String) :
    Option.Rel (fun p q => p.unlined = q.unlined) (s.payload? kind name) (s'.payload? kind name) := by
  have found : (s.payload? kind name).map (·.unlined) = (s'.payload? kind name).map (·.unlined) := by
    rw [← payloadUnlined,← payloadUnlined,same]
  revert found
  generalize s.payload? kind name = p
  generalize s'.payload? kind name = q
  intro found
  cases p with
  | none =>
    cases q with
    | none => exact .none
    | some q => contradiction
  | some p =>
    cases q with
    | none => contradiction
    | some q => exact .some (Option.some.inj found)

theorem fieldRefTwins (text : String) :
    Twins (Scope.fieldRef line text) (Scope.fieldRef line' text) Eq := by
  unfold Scope.fieldRef
  split
  · split
    · exact .pure rfl
    · exact .after fun _ _ => .pure rfl
  · exact .after fun _ _ => .pure rfl

theorem methodRefTwins (text : String) :
    Twins (Scope.methodRef line text) (Scope.methodRef line' text) Eq := by
  unfold Scope.methodRef
  split
  · exact .after fun _ _ => .pure rfl
  · split
    · exact .after fun _ _ => .pure rfl
    · exact .pure rfl

/-- Instructions that differ in their line at most. -/
abbrev Alike (i j : Instruction) : Prop := i.unlined = j.unlined

def AlikeLed (r r' : Instruction × List String) : Prop := Alike r.1 r'.1 ∧ r.2 = r'.2

theorem leadingTwins (same : s.unlined = s'.unlined) (alike : Alike i j) (n : Nat) (ops : List String) :
    Twins (s.leading i n ops) (s'.leading j n ops) AlikeLed := by
  unfold Scope.leading
  split
  · exact .after fun _ _ => .pure ⟨alike,rfl⟩
  · refine (registerAllTwins same _).bind fun rs _ same => .pure ⟨?_,rfl⟩
    exact same ▸ congrArg (fun i : Instruction => { i with regs := rs }) alike

theorem listedTwins (same : s.unlined = s'.unlined) (alike : Alike i j) (ops : List String) :
    Twins (s.listed i ops) (s'.listed j ops) Alike := by
  unfold Scope.listed
  split
  · exact .after fun _ _ => .pure alike
  · split
    · exact .after fun _ _ => .pure alike
    · refine (registerAllTwins same _).bind fun rs _ same => .pure ?_
      exact same ▸ congrArg (fun i : Instruction => { i with regs := rs }) alike

theorem switchTableTwins (same : s.unlined = s'.unlined) (alike : Alike i j) (kind : PayloadKind) :
    Twins (s.switchTable i kind) (s'.switchTable j kind) Alike := by
  have name : i.payload = j.payload := congrArg (·.payload) alike
  have found : Option.Rel (fun p q => p.unlined = q.unlined) (s.payload? kind i.payload)
      (s'.payload? kind j.payload) := by
    rw [name]
    exact payloadTwins same kind j.payload
  unfold Scope.switchTable
  revert found
  generalize s.payload? kind i.payload = p
  generalize s'.payload? kind j.payload = q
  intro found
  cases found with
  | none => exact .after fun _ _ => .pure alike
  | @some p q payload =>
    have labels : p.labels = q.labels := congrArg (·.labels) payload
    have keys : p.keys = q.keys := congrArg (·.keys) payload
    have first : p.first = q.first := congrArg (·.first) payload
    have set : ∀ t, Alike { i with switch := t } { j with switch := t } :=
      fun t => congrArg (fun i : Instruction => { i with switch := t }) alike
    dsimp only
    rw [labels,keys,first]
    exact (labelAllTwins same _).bind fun ts _ same => .pure (same ▸ set _)

theorem operandTwins {n : Nat} {ops : List String} {next next' : Instruction × List String → Noting Instruction}
    (same : s.unlined = s'.unlined) (alike : Alike i j)
    (none : ∀ i j, Alike i j → Twins (next (i,[])) (next' (j,[])) Alike)
    (some : ∀ i j o os, Alike i j → Twins (next (i,o :: os)) (next' (j,o :: os)) Alike) :
    Twins (s.leading i n ops >>= next) (s'.leading j n ops >>= next') Alike := by
  refine (leadingTwins same alike n ops).bind ?_
  rintro ⟨i',rest⟩ ⟨j',_⟩ ⟨alike,rfl⟩
  cases rest with
  | nil => exact none i' j' alike
  | cons o os => exact some i' j' o os alike

theorem decodeTwins (same : s.unlined = s'.unlined) {p q : Placed} (alike : p.unlined = q.unlined) :
    Twins (s.decode p) (s'.decode q) Alike := by
  have inst : Alike p.inst q.inst := congrArg (·.inst) alike
  have operands : p.operands = q.operands := congrArg (·.operands) alike
  have family : p.inst.family = q.inst.family := congrArg (·.family) inst
  have short : p.inst.twoAddress = q.inst.twoAddress := congrArg (·.twoAddress) inst
  have led : ∀ n, Twins (do return (← s.leading p.inst n p.operands).1)
      (do return (← s'.leading q.inst n q.operands).1) Alike := fun n =>
    operands ▸ operandTwins same inst (fun _ _ alike => .pure alike) fun _ _ _ _ alike => .pure alike
  unfold Scope.decode
  dsimp only
  rw [← family,← short,← operands]
  rw [← operands] at led
  split
  case h_1 | h_2 | h_3 => exact .pure inst
  case h_4 | h_5 | h_6 | h_7 | h_8 | h_9 => exact led 1
  case h_10 | h_11 | h_12 | h_13 => exact led 2
  case h_14 | h_15 | h_16 => exact led 3
  case h_17 => exact led _
  case h_18 | h_19 | h_20 =>
    refine operandTwins same inst (fun _ _ alike => .pure alike) fun i j o _ alike => ?_
    refine (noteLiteralTwins o).bind fun v _ same => .pure ?_
    exact same ▸ congrArg (fun i : Instruction => { i with literal := v }) alike
  case h_21 =>
    refine operandTwins same inst (fun _ _ alike => .pure alike) fun i j o _ alike => ?_
    dsimp only
    split
    · rename_i bs _
      exact .pure (congrArg (fun i : Instruction => { i with str := bs }) alike)
    · exact .after fun _ _ => .pure alike
  case h_22 | h_25 =>
    refine operandTwins same inst (fun _ _ alike => .pure alike) fun i j o _ alike => .pure ?_
    exact congrArg (fun i : Instruction => { i with ref := o }) alike
  case h_23 | h_24 | h_26 =>
    refine operandTwins same inst (fun _ _ alike => .pure alike) fun i j o _ alike => .pure ?_
    exact congrArg (fun i : Instruction => { i with ref := o, type := o }) alike
  case h_27 =>
    refine (listedTwins same inst _).bind fun i j alike => ?_
    split
    · rename_i o _ _
      exact .pure (congrArg (fun i : Instruction => { i with ref := o, type := o }) alike)
    · exact .pure alike
  case h_28 =>
    refine operandTwins same inst (fun _ _ alike => .pure alike) fun i j o _ alike => ?_
    have named := congrArg (fun i : Instruction => { i with payload := stripStart ":" o }) alike
    have found := payloadTwins same .arrayData (stripStart ":" o)
    revert found
    dsimp only
    generalize s.payload? .arrayData (stripStart ":" o) = p
    generalize s'.payload? .arrayData (stripStart ":" o) = q
    intro found
    cases found with
    | none => exact .after fun _ _ => .pure named
    | @some p q payload =>
      have width : p.width = q.width := congrArg (·.width) payload
      have values : p.values = q.values := congrArg (·.values) payload
      dsimp only
      rw [width,values]
      exact .pure (congrArg (fun i : Instruction => { i with array := some ⟨q.width,q.values⟩ }) named)
  case h_29 =>
    split
    · exact .after fun _ _ => .pure inst
    · refine (labelTwins same _).bind fun o _ same => .pure ?_
      exact same ▸ congrArg (fun i : Instruction => { i with target := o }) inst
  case h_30 | h_31 =>
    refine operandTwins same inst (fun _ _ alike => .pure alike) fun i j o _ alike => ?_
    refine (labelTwins same o).bind fun v _ same => .pure ?_
    exact same ▸ congrArg (fun i : Instruction => { i with target := v }) alike
  case h_32 | h_33 =>
    refine operandTwins same inst (fun _ _ alike => .pure alike) fun i j o _ alike => ?_
    exact switchTableTwins same
      (congrArg (fun i : Instruction => { i with payload := stripStart ":" o }) alike) _
  case h_34 | h_35 | h_36 | h_37 =>
    refine operandTwins same inst (fun _ _ alike => .pure alike) fun i j o _ alike => ?_
    refine (fieldRefTwins o).bind fun f _ same => .pure ?_
    exact same ▸ congrArg (fun i : Instruction => { i with field := f }) alike
  case h_38 =>
    refine (listedTwins same inst _).bind fun i j alike => ?_
    split
    · exact .pure alike
    · refine (methodRefTwins _).bind fun m _ same => ?_
      cases same
      cases m with
      | none => exact .pure alike
      | some m =>
        exact .pure (congrArg (fun i : Instruction => { i with method := some m, type := m.result }) alike)

/-! ### Methods -/

theorem decodeAllTwins (same : s.unlined = s'.unlined) {ps qs : List Placed}
    (alike : ps.map (·.unlined) = qs.map (·.unlined)) :
    Twins (s.decodeAll ps) (s'.decodeAll qs) fun is js => is.map (·.unlined) = js.map (·.unlined) := by
  induction ps generalizing qs with
  | nil =>
    cases List.map_eq_nil_iff.mp alike.symm
    exact .pure rfl
  | cons p ps ih =>
    cases qs with
    | nil => contradiction
    | cons q qs =>
      obtain ⟨first,later⟩ := List.cons.inj alike
      refine (decodeTwins same first).bind fun i j here => (ih later).bind fun is js there => .pure ?_
      rw [List.map_cons,List.map_cons,here,there]

theorem catchesTwins (same : s.unlined = s'.unlined) {cs cs' : List CatchLine}
    (alike : cs.map (·.unlined) = cs'.map (·.unlined)) : Twins (s.catches cs) (s'.catches cs') Eq := by
  have labels : s.labels = s'.labels := congrArg (·.labels) same
  induction cs generalizing cs' with
  | nil =>
    cases List.map_eq_nil_iff.mp alike.symm
    exact .pure rfl
  | cons c cs ih =>
    cases cs' with
    | nil => contradiction
    | cons c' cs' =>
      obtain ⟨first,later⟩ := List.cons.inj alike
      have start : c.start = c'.start := congrArg (·.start) first
      have stop : c.stop = c'.stop := congrArg (·.stop) first
      have handler : c.handler = c'.handler := congrArg (·.handler) first
      have type : c.type = c'.type := congrArg (·.type) first
      unfold Scope.catches
      rw [labels,start,stop,handler,type]
      split
      · exact (ih later).bind fun ds _ same => .pure (same ▸ rfl)
      · exact .after fun _ _ => ih later

namespace Draft

variable {d d' : Draft}

theorem addCatchTwins (same : d.unlined = d'.unlined) (head rest : String) :
    Twins (d.addCatch line head rest) (d'.addCatch line' head rest) fun d d' => d.unlined = d'.unlined := by
  have added : ∀ type start stop handler,
      { d with catches := ⟨type,start,stop,handler,line⟩ :: d.catches }.unlined
        = { d' with catches := ⟨type,start,stop,handler,line'⟩ :: d'.catches }.unlined :=
    fun type start stop handler => congrArg
      (fun d : Draft => { d with catches := ⟨type,start,stop,handler,0⟩ :: d.catches }) same
  unfold addCatch
  split
  split
  · exact .after fun _ _ => .pure same
  · split
    · split
      · exact .after fun _ _ => .pure same
      · exact .pure (added ..)
    · exact .after fun _ _ => .pure same

theorem addPayloadUnlined (names : List String) (d : Draft) (p : Payload) :
    (d.addPayload names p).unlined = d.unlined.addPayload names p.unlined := by
  have named : ∀ ps : List (String × Payload),
      unlinedPayloads (names.foldl (fun ps name => (name,p) :: ps) ps)
        = names.foldl (fun ps name => (name,p.unlined) :: ps) (unlinedPayloads ps) := by
    induction names with
    | nil => exact fun _ => rfl
    | cons name names ih => exact fun ps => ih _
  unfold addPayload unlined
  dsimp only
  rw [named]

theorem finishTwins (same : d.unlined = d'.unlined) :
    Twins d.finish d'.finish fun m m' => m.unlined = m'.unlined := by
  have method : d.method.unlined = d'.method.unlined := congrArg (·.method) same
  have ins : d.method.ins = d'.method.ins := congrArg (·.ins) method
  have registers : d.registerCount = d'.registerCount :=
    show d.unlined.registerCount = d'.unlined.registerCount from congrArg registerCount same
  have scopes : Scope.unlined ⟨d.registerCount,d.method.ins,d.labels,d.payloads⟩
      = Scope.unlined ⟨d'.registerCount,d'.method.ins,d'.labels,d'.payloads⟩ := by
    have labels : d.labels = d'.labels := congrArg (·.labels) same
    have payloads : unlinedPayloads d.payloads = unlinedPayloads d'.payloads := congrArg (·.payloads) same
    unfold Scope.unlined
    dsimp only
    rw [payloads,labels,ins,registers]
  have placed : d.placed.reverse.map (·.unlined) = d'.placed.reverse.map (·.unlined) := by
    rw [List.map_reverse,List.map_reverse]
    exact congrArg (fun d : Draft => d.placed.reverse) same
  have catches : d.catches.reverse.map (·.unlined) = d'.catches.reverse.map (·.unlined) := by
    rw [List.map_reverse,List.map_reverse]
    exact congrArg (fun d : Draft => d.catches.reverse) same
  refine (decodeAllTwins scopes placed).bind fun is js code =>
    (catchesTwins scopes catches).bind fun ds es same => .pure ?_
  cases same
  unfold Method.unlined
  dsimp only
  rw [code,registers]
  exact congrArg (fun m : Method => { m with
    registers := d'.registerCount, code := js.map Instruction.unlined
    tries := TryTable.normalize ds, overlaps := TryTable.partialOverlaps ds }) method

end Draft

/-! ### Classes -/

variable {hidden : Nat → Nat → Bool}

theorem shownCons (c : Class) (cs : List Class) : shownClasses hidden (c :: cs).reverse
    = shownClasses hidden cs.reverse ++ [c.shown (hidden cs.length)] := by
  unfold shownClasses
  rw [List.reverse_cons,List.mapIdx_concat,List.length_reverse]

theorem shownCases {cs cs' : List Class}
    (same : shownClasses hidden cs.reverse = shownClasses hidden cs'.reverse) :
    cs = [] ∧ cs' = [] ∨ ∃ c ds c' ds', cs = c :: ds ∧ cs' = c' :: ds' ∧ ds.length = ds'.length
      ∧ c.shown (hidden ds.length) = c'.shown (hidden ds.length)
      ∧ shownClasses hidden ds.reverse = shownClasses hidden ds'.reverse := by
  have long : cs.length = cs'.length := by
    have := congrArg List.length same
    unfold shownClasses at this
    rwa [List.length_mapIdx,List.length_mapIdx,List.length_reverse,List.length_reverse] at this
  cases cs with
  | nil => exact .inl ⟨rfl,List.length_eq_zero_iff.mp long.symm⟩
  | cons c ds =>
    cases cs' with
    | nil => contradiction
    | cons c' ds' =>
      have long : ds.length = ds'.length := Nat.succ.inj long
      rw [shownCons,shownCons,← long] at same
      obtain ⟨back,front⟩ := List.append_inj' same rfl
      exact .inr ⟨c,ds,c',ds',rfl,rfl,long,List.head_eq_of_cons_eq front,back⟩

theorem shownAdd {hide : Nat → Bool} {c c' : Class} (same : c.shown hide = c'.shown hide) {m m' : Method}
    (added : (if hide c.methods.length then m.heading else m.unlined)
      = if hide c.methods.length then m'.heading else m'.unlined) :
    { c with methods := c.methods ++ [m] }.shown hide
      = { c' with methods := c'.methods ++ [m'] }.shown hide := by
  have long : c.methods.length = c'.methods.length := by
    simpa [Class.shown] using congrArg (·.methods.length) same
  have grown := congrArg (fun d : Class => { d with
    methods := d.methods ++ [if hide c.methods.length then m'.heading else m'.unlined] }) same
  unfold Class.shown at grown ⊢
  dsimp only at grown ⊢
  rw [List.mapIdx_concat,List.mapIdx_concat,← long,added]
  exact grown

namespace Reader

structure Near (hidden : Nat → Nat → Bool) (r r' : Reader) : Prop where
  classes : shownClasses hidden r.classes.reverse = shownClasses hidden r'.classes.reverse
  draft : r.draft.map (·.unlined) = r'.draft.map (·.unlined)
  mode : r.mode.unlined = r'.mode.unlined

def shut (last : Nat) (r : Reader) : Noting Reader :=
  match r.draft with
  | some d => do
    note last (.methodEnd d.method.name)
    r.closeMethod d
  | none => pure r

namespace Near

variable {r r' : Reader}

theorem refl (r : Reader) : Near hidden r r := ⟨rfl,rfl,rfl⟩

theorem trans {r'' : Reader} (near : Near hidden r r') (near' : Near hidden r' r'') : Near hidden r r'' :=
  ⟨near.classes.trans near'.classes,near.draft.trans near'.draft,near.mode.trans near'.mode⟩

theorem modifyClass (near : Near hidden r r') {f g : Class → Class}
    (alike : ∀ hide c c', c.shown hide = c'.shown hide → (f c).shown hide = (g c').shown hide) :
    Near hidden (r.modifyClass f) (r'.modifyClass g) := by
  obtain ⟨cs,draft,mode⟩ := r
  obtain ⟨cs',draft',mode'⟩ := r'
  obtain ⟨rfl,rfl⟩ | ⟨c,ds,c',ds',rfl,rfl,long,last,back⟩ := shownCases near.classes
  · exact near
  · refine ⟨?_,near.draft,near.mode⟩
    unfold Reader.modifyClass
    dsimp only
    rw [shownCons,shownCons,← long,back,alike _ _ _ last]

theorem skip (near : Near hidden r r') (stop : String) : Near hidden (r.skip stop) (r'.skip stop) :=
  ⟨near.classes,near.draft,rfl⟩

theorem openClass (near : Near hidden r r') {l l' : Line} (rest : String) :
    Twins (r.openClass l rest) (r'.openClass l' rest) (Near hidden) := by
  have long : r.classes.length = r'.classes.length := by
    simpa [shownClasses] using congrArg List.length near.classes
  have opened : ∀ access name,
      Near hidden { r with classes := ⟨name,access,"",[],[],l.number,[],[]⟩ :: r.classes }
        { r' with classes := ⟨name,access,"",[],[],l'.number,[],[]⟩ :: r'.classes } := fun access name => by
    refine ⟨?_,near.draft,near.mode⟩
    rw [shownCons,shownCons,near.classes,long]
    rfl
  unfold Reader.openClass
  split
  dsimp only
  split
  · exact .after fun _ _ => .pure (opened ..)
  · exact .pure (opened ..)

theorem addField (near : Near hidden r r') {l l' : Line} (rest : String) :
    Twins (r.addField l rest) (r'.addField l' rest) (Near hidden) := by
  have grown : ∀ field, Near hidden (r.modifyClass fun c => { c with fields := c.fields ++ [field] })
      (r'.modifyClass fun c => { c with fields := c.fields ++ [field] }) := fun field =>
    near.modifyClass fun _ _ _ => congrArg fun c : Class => { c with fields := c.fields ++ [field] }
  unfold Reader.addField
  split
  split
  dsimp only
  split
  · split
    · exact .after fun _ _ => .pure near
    · exact .pure ⟨(grown _).classes,(grown _).draft,rfl⟩
  · exact .after fun _ _ => .pure near

theorem openMethod (near : Near hidden r r') {l l' : Line} {c c' : Class} (name : c.name = c'.name)
    (long : c.methods.length = c'.methods.length) (rest : String) :
    Twins (r.openMethod l c rest) (r'.openMethod l' c' rest) (Near hidden) := by
  unfold Reader.openMethod
  split
  dsimp only
  split
  · exact .after fun _ _ => .pure (near.skip _)
  · exact .after fun _ _ => .pure (near.skip _)
  · split
    · exact .after fun _ _ => .pure (near.skip _)
    · rw [name,long]
      exact .pure ⟨near.classes,rfl,near.mode⟩

theorem declaration (near : Near hidden r r') {l l' : Line} (text : l.text = l'.text) :
    Twins (r.declaration l) (r'.declaration l') (Near hidden) := by
  unfold Reader.declaration
  rw [← text]
  split
  rename_i rest _
  split
  · exact near.openClass _
  · exact .pure (near.modifyClass fun _ _ _ => congrArg fun c : Class => { c with super := rest })
  · exact .pure (near.modifyClass fun _ _ _ => congrArg fun c : Class => { c with
      interfaces := c.interfaces ++ [rest] })
  · split
    · rename_i s _
      exact .pure (near.modifyClass fun _ _ _ => congrArg fun c : Class => { c with sourceFile := s })
    · exact .pure near
  · obtain ⟨none,none'⟩ | ⟨c,ds,c',ds',some,some',-⟩ := shownCases near.classes
    · rw [none,none']
      exact .after fun _ _ => .pure near
    · rw [some,some']
      exact near.addField _
  · obtain ⟨none,none'⟩ | ⟨c,ds,c',ds',some,some',-,same,-⟩ := shownCases near.classes
    · rw [none,none']
      exact .after fun _ _ => .pure (near.skip _)
    · rw [some,some']
      refine near.openMethod (congrArg (·.name) same) ?_ _
      simpa [Class.shown] using congrArg (·.methods.length) same
  · exact .pure (near.skip _)
  · exact .pure (near.skip _)
  · exact .pure near
  · exact .after fun _ _ => .pure near

theorem closeMethod (near : Near hidden r r') {d d' : Draft} (same : d.unlined = d'.unlined) :
    Twins (r.closeMethod d) (r'.closeMethod d') (Near hidden) := by
  refine (Draft.finishTwins same).bind fun m m' same => ?_
  have added : m.heading = m'.heading :=
    show m.unlined.heading = m'.unlined.heading from congrArg Method.heading same
  have grown : Near hidden (r.modifyClass fun c => { c with methods := c.methods ++ [m] })
      (r'.modifyClass fun c => { c with methods := c.methods ++ [m'] }) :=
    near.modifyClass fun _ _ _ shown => shownAdd shown (by rw [same,added])
  exact .pure ⟨grown.classes,rfl,grown.mode⟩

theorem redraft (near : Near hidden r r') {d d' : Draft} (same : d.unlined = d'.unlined) :
    Near hidden { r with draft := some d } { r' with draft := some d' } :=
  ⟨near.classes,congrArg some same,near.mode⟩

theorem bodyLine (near : Near hidden r r') {d d' : Draft} (same : d.unlined = d'.unlined)
    {l l' : Line} (text : l.text = l'.text) :
    Twins (r.bodyLine d l) (r'.bodyLine d' l') (Near hidden) := by
  have waiting : d.waiting = d'.waiting := congrArg (·.waiting) same
  unfold Reader.bodyLine
  rw [← text]
  split
  · rename_i name _
    rw [waiting]
    have waits := congrArg (fun d : Draft => { d with waiting := d'.waiting ++ [name] }) same
    exact .pure (near.redraft waits)
  · split
    rename_i rest _
    split
    · split
      · exact near.closeMethod (congrArg Draft.bindLabels same)
      · exact .pure near
    · refine (readCountTwins _ _).bind fun n _ count => .pure ?_
      exact count ▸ near.redraft (congrArg (fun d : Draft => { d with registers := n }) same)
    · refine (readCountTwins _ _).bind fun n _ count => .pure ?_
      exact count ▸ near.redraft (congrArg (fun d : Draft => { d with locals := some n }) same)
    · exact (Draft.addCatchTwins same _ _).bind fun _ _ same => .pure (near.redraft same)
    · exact (Draft.addCatchTwins same _ _).bind fun _ _ same => .pure (near.redraft same)
    · exact .pure (near.skip _)
    · exact .pure ⟨near.classes,near.draft,rfl⟩
    · split
      · refine (openPayloadTwins _ _).bind fun p q payload => .pure ⟨near.classes,?_,?_⟩
        · exact congrArg (fun d : Draft => some { d with waiting := [] }) same
        · rw [waiting]
          exact congrArg (Mode.payload d'.waiting) payload
      · split
        · exact .pure near
        · split
          · exact .after fun _ _ => .pure near
          · rename_i inst _
            have placed := congrArg (·.place 0 inst (operands rest)) same
            exact .pure (near.redraft placed)

theorem plainLine (near : Near hidden r r') {l l' : Line} (text : l.text = l'.text) :
    Twins (r.plainLine l) (r'.plainLine l') (Near hidden) := by
  have draft := near.draft
  unfold Reader.plainLine
  revert draft
  cases r.draft with
  | none =>
    cases r'.draft with
    | none => exact fun _ => near.declaration text
    | some d' => exact fun _ => by contradiction
  | some d =>
    cases r'.draft with
    | none => exact fun _ => by contradiction
    | some d' => exact fun draft => near.bodyLine (Option.some.inj draft) text

theorem closePayload (near : Near hidden r r') (names : List String) {p p' : Payload}
    (same : p.unlined = p'.unlined) : Near hidden (r.closePayload names p) (r'.closePayload names p') := by
  refine ⟨near.classes,?_,rfl⟩
  have added := congrArg (Option.map (·.addPayload names p'.unlined)) near.draft
  unfold Reader.closePayload
  dsimp only
  rw [Option.map_map,Option.map_map] at added ⊢
  rw [show (Draft.unlined ∘ fun d : Draft => d.addPayload names p) = _ from
    funext (Draft.addPayloadUnlined names · p),
    show (Draft.unlined ∘ fun d : Draft => d.addPayload names p') = _ from
    funext (Draft.addPayloadUnlined names · p'),same]
  exact added

theorem step (near : Near hidden r r') {l l' : Line} (text : l.text = l'.text) :
    Twins (r.step l) (r'.step l') (Near hidden) := by
  have same := near.mode
  have plain : Near hidden { r with mode := .plain } { r' with mode := .plain } :=
    ⟨near.classes,near.draft,rfl⟩
  unfold Reader.step
  rw [← text]
  obtain ⟨classes,draft,mode⟩ := r
  obtain ⟨classes',draft',mode'⟩ := r'
  cases mode <;> cases mode' <;> first | contradiction | skip
  case plain.plain => exact near.plainLine text
  case skipping.skipping stop stop' =>
    cases same
    dsimp only
    split
    · exact .pure plain
    · exact .pure near
  case peeking.peeking stop stop' =>
    cases same
    dsimp only
    split
    · exact .pure (near.skip _)
    · exact plain.plainLine text
  case payload.payload names p names' p' =>
    injection same with named same
    cases named
    have kind : p.kind = p'.kind := congrArg (·.kind) same
    dsimp only
    rw [kind]
    split
    · exact .pure (near.closePayload _ same)
    · refine (addLineTwins same text).bind fun q q' same => .pure ⟨near.classes,near.draft,?_⟩
      exact congrArg (Mode.payload names) same

theorem steps (near : Near hidden r r') {ls ls' : List Line} (texts : ls.map (·.text) = ls'.map (·.text)) :
    Twins (r.steps ls) (r'.steps ls') (Near hidden) := by
  induction ls generalizing r r' ls' with
  | nil =>
    cases List.map_eq_nil_iff.mp texts.symm
    exact .pure near
  | cons l ls ih =>
    cases ls' with
    | nil => contradiction
    | cons l' ls' =>
      obtain ⟨here,later⟩ := List.cons.inj texts
      exact (near.step here).bind fun _ _ near => ih near later

theorem close (near : Near hidden r r') (last last' : Nat) :
    Twins (r.close last) (r'.close last') (Near hidden) := by
  have shut : ∀ r r' : Reader, Near hidden r r' → Twins (r.shut last) (r'.shut last') (Near hidden) := by
    rintro ⟨classes,draft,mode⟩ ⟨classes',draft',mode'⟩ near
    have same := near.draft
    cases draft <;> cases draft' <;> first | contradiction | skip
    case none.none => exact .pure near
    case some.some d d' => exact .after fun _ _ => near.closeMethod (Option.some.inj same)
  have same := near.mode
  unfold Reader.close
  obtain ⟨classes,draft,mode⟩ := r
  obtain ⟨classes',draft',mode'⟩ := r'
  cases mode <;> cases mode' <;> first | contradiction | skip
  case payload.payload names p names' p' =>
    injection same with named same
    cases named
    exact .after fun _ _ => shut _ _ (near.closePayload names same)
  all_goals exact shut _ _ near

end Near

end Reader

end Assembly
end RegCode
