import RegCode.Cache
import RegCode.Config
import RegCode.Proofs.Text.Bytes
import RegCode.Proofs.Text.Numerals
import RegCode.Decompile

/-! What the bytes under a digest tell: all fields one by one, and from them the head of a method,
its ranges, and offset and text of every instruction. -/
namespace RegCode

open Text

namespace Cache

def Short (s : String) : Prop := (bytesOf s).length < 4294967296

theorem fieldInj {s t : String} {as bs : Bytes} (short : Short s) (short' : Short t)
    (same : field s ++ as = field t ++ bs) : s = t ∧ as = bs := by
  unfold field at same
  simp only [List.cons_append,List.nil_append,List.cons.injEq] at same
  obtain ⟨b₀,b₁,b₂,b₃,rest⟩ := same
  have number : ∀ m n : Nat, m.toUInt8 = n.toUInt8 → m % 256 = n % 256 := fun m n same => by
    simpa using congrArg UInt8.toNat same
  have length : (bytesOf s).length = (bytesOf t).length := by
    have := number _ _ b₀
    have := number _ _ b₁
    have := number _ _ b₂
    have := number _ _ b₃
    unfold Short at short short'
    omega
  obtain ⟨texts,rest⟩ := List.append_inj rest length
  exact ⟨bytesOfInj texts,rest⟩

theorem fieldsInj {ss ts : List String} (short : ∀ s ∈ ss, Short s) (short' : ∀ t ∈ ts, Short t)
    (same : ss.flatMap field = ts.flatMap field) : ss = ts := by
  induction ss generalizing ts with
  | nil =>
    cases ts with
    | nil => rfl
    | cons t ts => contradiction
  | cons s ss ih =>
    cases ts with
    | nil => contradiction
    | cons t ts =>
      rw [List.flatMap_cons,List.flatMap_cons] at same
      obtain ⟨rfl,rest⟩ := fieldInj (short s (List.mem_cons_self ..)) (short' t (List.mem_cons_self ..))
        same
      rw [ih (fun x member => short x (List.mem_cons_of_mem _ member))
        (fun x member => short' x (List.mem_cons_of_mem _ member)) rest]

theorem lastBlankInj {a b c d : List Char} (first : ' ' ∉ c) (second : ' ' ∉ d)
    (same : a ++ ' ' :: c = b ++ ' ' :: d) : a = b ∧ c = d := by
  have turned := congrArg List.reverse same
  simp only [List.reverse_append,List.reverse_cons,List.append_assoc,List.cons_append,List.nil_append]
    at turned
  have part : ∀ e : List Char, ' ' ∉ e → ∀ x ∈ e.reverse, (x != ' ') = true := by
    intro e none x member
    rw [bne_iff_ne]
    rintro rfl
    exact none (List.mem_reverse.mp member)
  have stop : ∀ e : List Char, ∀ x ∈ (' ' :: e).head?, (x != ' ') = false := by
    rintro e x ⟨⟩
    rfl
  obtain ⟨last,front⟩ := spanInj (part c first) (part d second) (stop _) (stop _) turned
  exact ⟨List.reverse_inj.mp (List.cons.inj front).2,List.reverse_inj.mp last⟩

theorem noBlank (x : Int) : ' ' ∉ (offsetText x).toList :=
  fun member => absurd (offsetTextNumeral x ' ' member) (by decide)

theorem catchInj {h k : Handler} (same : "catch " ++ h.type ++ " " ++ offsetText h.target =
    "catch " ++ k.type ++ " " ++ offsetText k.target) : h = k := by
  have letters := congrArg String.toList same
  simp only [String.toList_append,List.append_assoc] at letters
  obtain ⟨types,targets⟩ := lastBlankInj (noBlank _) (noBlank _) (List.append_cancel_left letters)
  cases h
  cases k
  cases String.toList_injective types
  cases offsetTextInj (String.toList_injective targets)
  rfl

theorem boundsInj {t u : TryRange} (same : "try " ++ offsetText t.start ++ "-" ++ offsetText t.stop =
    "try " ++ offsetText u.start ++ "-" ++ offsetText u.stop) : t.start = u.start ∧ t.stop = u.stop := by
  have letters := congrArg String.toList same
  simp only [String.toList_append,List.append_assoc] at letters
  obtain ⟨starts,stops⟩ := offsetDashInj (List.append_cancel_left letters)
  exact ⟨starts,offsetTextInj (String.toList_injective stops)⟩

def isCatch (s : String) : Bool := s.toList.head? == some 'c'

theorem triesHead (ts : List TryRange) : ∀ s ∈ (ts.flatMap tryFields).head?, s.toList.head? = some 't' := by
  intro s first
  cases ts with
  | nil => contradiction
  | cons t ts =>
    rw [List.flatMap_cons,tryFields,List.cons_append,List.head?_cons] at first
    rw [← Option.some.inj first]
    simp [String.toList_append]

theorem triesInj {ts us : List TryRange} (same : ts.flatMap tryFields = us.flatMap tryFields) :
    ts = us := by
  induction ts generalizing us with
  | nil =>
    cases us with
    | nil => rfl
    | cons u us => contradiction
  | cons t ts ih =>
    cases us with
    | nil => contradiction
    | cons u us =>
      rw [List.flatMap_cons,List.flatMap_cons,tryFields,tryFields,List.cons_append,List.cons_append] at same
      obtain ⟨bounds,rest⟩ := List.cons.inj same
      have caught : ∀ hs : List Handler, ∀ s ∈ hs.map (fun h =>
          "catch " ++ h.type ++ " " ++ offsetText h.target), isCatch s = true := by
        intro hs s member
        obtain ⟨h,-,rfl⟩ := List.mem_map.mp member
        simp [isCatch,String.toList_append]
      have stop : ∀ vs : List TryRange, ∀ s ∈ (vs.flatMap tryFields).head?, isCatch s = false := by
        intro vs s first
        rw [isCatch,triesHead vs s first]
        decide
      obtain ⟨handlers,rest⟩ := spanInj (caught _) (caught _) (stop _) (stop _) rest
      obtain ⟨starts,stops⟩ := boundsInj bounds
      have handlers := (List.map_inj_right fun h k => catchInj).mp handlers
      rw [ih rest]
      cases t
      cases u
      cases starts
      cases stops
      cases handlers
      rfl

structure Told (m m' : Method) : Prop where
  fullName : m.fullName = m'.fullName
  access : m.access = m'.access
  registers : m.registers = m'.registers
  code : m.code.map (fun i => (i.offset,i.text)) = m'.code.map fun i => (i.offset,i.text)
  tries : m.tries = m'.tries

theorem headInj {m m' : Method}
    (same : natText m.access.bits.toNat ++ "/" ++ intText m.registers =
      natText m'.access.bits.toNat ++ "/" ++ intText m'.registers) :
    m.access = m'.access ∧ m.registers = m'.registers := by
  have letters := congrArg String.toList same
  simp only [String.toList_append,List.append_assoc] at letters
  have stop : ∀ e : List Char, ∀ x ∈ ("/".toList ++ e).head?, isDigit x = false := by
    rintro e x ⟨⟩
    rfl
  obtain ⟨bits,rest⟩ := spanInj (natTextDigits _) (natTextDigits _) (stop _) (stop _) letters
  have bits := UInt32.toNat_inj.mp (natTextInj (String.toList_injective bits))
  refine ⟨?_,intTextInj (String.toList_injective (List.append_cancel_left rest))⟩
  cases access : m.access
  cases access' : m'.access
  rw [access,access'] at bits
  exact congrArg _ bits

def isPlaced (s : String) : Bool := s.toList.head?.any isNumeral

theorem codeTextInj {i j : Instruction}
    (same : offsetText i.offset ++ " " ++ i.text = offsetText j.offset ++ " " ++ j.text) :
    (i.offset,i.text) = (j.offset,j.text) := by
  have letters := congrArg String.toList same
  simp only [String.toList_append,List.append_assoc] at letters
  have stop : ∀ e : List Char, ∀ x ∈ (" ".toList ++ e).head?, isNumeral x = false := by
    rintro e x ⟨⟩
    rfl
  obtain ⟨offsets,rest⟩ := spanInj (offsetTextNumeral _) (offsetTextNumeral _) (stop _) (stop _) letters
  rw [offsetTextInj (String.toList_injective offsets),
    String.toList_injective (List.append_cancel_left rest)]

theorem methodFieldsTold {m m' : Method} (same : methodFields m = methodFields m') : Told m m' := by
  unfold methodFields at same
  simp only [List.cons_append,List.nil_append,List.cons.injEq] at same
  obtain ⟨name,head,rest⟩ := same
  have placed : ∀ is : List Instruction, ∀ s ∈ is.map (fun i => offsetText i.offset ++ " " ++ i.text),
      isPlaced s = true := by
    intro is s member
    obtain ⟨i,-,rfl⟩ := List.mem_map.mp member
    obtain ⟨c,cs,letters⟩ := List.exists_cons_of_ne_nil (offsetTextNonempty i.offset)
    have numeral := offsetTextNumeral i.offset c (letters ▸ List.mem_cons_self ..)
    simp [isPlaced,String.toList_append,letters,numeral]
  have stop : ∀ ts : List TryRange, ∀ s ∈ (ts.flatMap tryFields).head?, isPlaced s = false := by
    intro ts s first
    rw [isPlaced,triesHead ts s first]
    decide
  obtain ⟨code,tries⟩ := spanInj (placed _) (placed _) (stop _) (stop _) rest
  obtain ⟨access,registers⟩ := headInj head
  refine ⟨name,access,registers,?_,triesInj tries⟩
  generalize m.code = is at code
  generalize m'.code = js at code
  induction is generalizing js with
  | nil =>
    cases js with
    | nil => rfl
    | cons j js => contradiction
  | cons i is ih =>
    cases js with
    | nil => contradiction
    | cons j js =>
      obtain ⟨first,code⟩ := List.cons.inj code
      rw [List.map_cons,List.map_cons,codeTextInj first,ih js code]

end Cache
end RegCode

/-! What the text of the settings tells, and that decompilation looks at nothing else of them. -/
namespace RegCode

open Text

namespace Config

theorem firstBlankInj {a b c d : List Char} (first : ' ' ∉ a) (second : ' ' ∉ b)
    (same : a ++ ' ' :: c = b ++ ' ' :: d) : a = b ∧ c = d := by
  have part : ∀ e : List Char, ' ' ∉ e → ∀ x ∈ e, (x != ' ') = true := by
    intro e none x member
    rw [bne_iff_ne]
    rintro rfl
    exact none member
  have stop : ∀ e : List Char, ∀ x ∈ (' ' :: e).head?, (x != ' ') = false := by
    rintro e x ⟨⟩
    rfl
  obtain ⟨words,rest⟩ := spanInj (part a first) (part b second) (stop c) (stop d) same
  exact ⟨words,(List.cons.inj rest).2⟩

theorem keyInj (key : String) {a b : List Char} (same : key.toList ++ a = key.toList ++ b) : a = b :=
  List.append_cancel_left same

theorem truthInj {a b : Bool} (same : (truthText a).toList = (truthText b).toList) : a = b := by
  cases a <;> cases b <;> first | rfl | exact absurd same (by decide)

theorem truthWord (b : Bool) : ' ' ∉ (truthText b).toList := by cases b <;> decide

theorem intWord (x : Int) : ' ' ∉ (intText x).toList :=
  fun member => absurd (intTextNumeral x ' ' member) (by decide)

/-- Settings whose loop policy is one word, as those that can be followed are. -/
def Plain (c : Config) : Prop := ' ' ∉ c.loopPolicy.toList

theorem policyWord {name : String} {p : LoopPolicy} (known : LoopPolicy.ofName name = .ok p) :
    ' ' ∉ name.toList := by
  unfold LoopPolicy.ofName at known
  split at known
  · decide
  · decide
  · decide
  · contradiction

theorem plainOfValid {c : Config} (valid : c.validate = .ok c) : c.Plain := by
  cases known : LoopPolicy.ofName c.loopPolicy with
  | ok p => exact policyWord known
  | error f =>
    unfold validate at valid
    rw [known] at valid
    contradiction

/-- Settings with the same effect on the text of a method. -/
structure Alike (c d : Config) : Prop where
  splitLifetimes : c.splitLifetimes = d.splitLifetimes
  propagate : c.propagate = d.propagate
  fold : c.fold = d.fold
  rounds : c.rounds = d.rounds
  loopPolicy : c.loopPolicy = d.loopPolicy
  handlerOrder : c.handlerOrder = d.handlerOrder
  indent : c.indent = d.indent
  showCode : c.showCode = d.showCode

theorem fingerprintTold {c d : Config} (plain : c.Plain) (plain' : d.Plain)
    (same : c.fingerprint = d.fingerprint) : c.Alike d := by
  have chars := congrArg String.toList same
  unfold fingerprint at chars
  simp only [String.toList_append,List.append_assoc] at chars
  obtain ⟨split,chars⟩ := firstBlankInj (truthWord _) (truthWord _) (List.append_cancel_left chars)
  obtain ⟨propagate,chars⟩ := firstBlankInj (truthWord _) (truthWord _)
    (keyInj "prop=" chars)
  obtain ⟨fold,chars⟩ := firstBlankInj (truthWord _) (truthWord _)
    (keyInj "fold=" chars)
  obtain ⟨rounds,chars⟩ := firstBlankInj (intWord _) (intWord _)
    (keyInj "rounds=" chars)
  obtain ⟨loop,chars⟩ := firstBlankInj plain plain' (keyInj "loop=" chars)
  -- the name of the handler order may have blanks, so the rest is read from its end
  have rest := keyInj "handlers=" chars
  have ending : ∀ (h i t : String), h.toList ++ (" indent=".toList ++ (i.toList ++ (" bc=".toList ++ t.toList))) =
      (h.toList ++ ' ' :: ("indent=".toList ++ i.toList)) ++ ' ' :: ("bc=".toList ++ t.toList) := by
    intro h i t
    simp
  have word : ∀ (key : String) (t : String), ' ' ∉ key.toList → ' ' ∉ t.toList →
      ' ' ∉ key.toList ++ t.toList := fun key t none none' member =>
    (List.mem_append.mp member).elim none none'
  rw [ending,ending] at rest
  obtain ⟨rest,code⟩ := Cache.lastBlankInj (word _ _ (by decide) (truthWord _))
    (word _ _ (by decide) (truthWord _)) rest
  obtain ⟨handlers,indent⟩ := Cache.lastBlankInj (word _ _ (by decide) (intWord _))
    (word _ _ (by decide) (intWord _)) rest
  exact {
    splitLifetimes := truthInj split
    propagate := truthInj propagate
    fold := truthInj fold
    rounds := intTextInj (String.toList_injective rounds)
    loopPolicy := String.toList_injective loop
    handlerOrder := String.toList_injective handlers
    indent := intTextInj (String.toList_injective (List.append_cancel_left indent))
    showCode := truthInj (List.append_cancel_left code) }

namespace Alike

variable {c d : Config}

theorem policy (alike : c.Alike d) : c.policy = d.policy := by
  rw [Config.policy,Config.policy,alike.loopPolicy,alike.handlerOrder]

theorem propagateOptions (alike : c.Alike d) : c.propagateOptions = d.propagateOptions := by
  rw [Config.propagateOptions,Config.propagateOptions,alike.fold,alike.rounds]

theorem layout (alike : c.Alike d) : c.layout = d.layout := by
  rw [Config.layout,Config.layout,alike.indent,alike.showCode]

end Alike

end Config

namespace Decompile

def Agree {α : Type} (x y : Stages α) : Prop := ∀ s t, (x.run.run s).1 = (y.run.run t).1

namespace Agree

variable {α β : Type}

theorem pure (a : α) : Agree (Pure.pure a) (Pure.pure a) := fun _ _ => rfl

theorem liftFault {ε : Type} (f : ε → DecompileFault) (x : Except ε α) :
    Agree (Decompile.liftFault f x) (Decompile.liftFault f x) := by
  cases x <;> exact fun _ _ => rfl

theorem note (c d : Config) (m : Method) (stage : String) (text : Unit → String) :
    Agree (Decompile.note c m stage text) (Decompile.note d m stage text) := by
  intro s t
  unfold Decompile.note
  split <;> split <;> rfl

theorem bind {x y : Stages α} {f g : α → Stages β} (first : Agree x y) (later : ∀ a, Agree (f a) (g a)) :
    Agree (x >>= f) (y >>= g) := by
  intro s t
  have head := first s t
  rw [ExceptT.run_bind,ExceptT.run_bind,StateT.run_bind,StateT.run_bind]
  change (x.run.run s).1 = (y.run.run t).1 at head
  generalize x.run.run s = p at head
  generalize y.run.run t = q at head
  obtain ⟨a,s⟩ := p
  obtain ⟨b,t⟩ := q
  cases head
  cases a with
  | error f => rfl
  | ok a => exact later a s t

end Agree

variable {c d : Config}

theorem agreeRefine (alike : c.Alike d) (g : Graph) : Agree (refine c g) (refine d g) := by
  unfold refine
  rw [alike.splitLifetimes,alike.propagate,alike.propagateOptions]
  refine (Agree.liftFault _ _).bind fun chains => ?_
  dsimp only
  split
  · refine (Agree.liftFault _ _).bind fun a => ?_
    split <;> exact .pure _
  · refine (Agree.pure _).bind fun a => ?_
    split <;> exact .pure _

theorem agreeRun (alike : c.Alike d) (m : Method) : Agree (run c m) (run d m) := by
  unfold run
  rw [alike.policy]
  refine (Agree.liftFault _ _).bind fun _ => (Agree.liftFault _ _).bind fun g => ?_
  split
  · exact .pure _
  · refine (Agree.note c d m _ _).bind fun _ => (agreeRefine alike g).bind fun a =>
      (Agree.note c d m _ _).bind fun _ => (Agree.liftFault _ _).bind fun r =>
        (Agree.note c d m _ _).bind fun _ => .pure _

end Decompile

theorem Method.decompileAlike {c d : Config} (alike : c.Alike d) (m : Method) :
    (m.decompile c).1 = (m.decompile d).1 := Decompile.agreeRun alike m [] []

end RegCode
