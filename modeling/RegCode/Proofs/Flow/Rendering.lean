import RegCode.Proofs.Flow.Drawing

/-! Every node of a graph that is being built, once its block is worked off, says what the block is:
its statements over the variables of the method, its edges, and the handlers of its range. -/
namespace RegCode
namespace Flow

variable {m : Method} {blocks met more : List Block} {b b' : Builder} {n i : NodeId} {k : Block}

structure Renders (m : Method) (blocks met : List Block) (g : Graph) (i : NodeId) (k : Block)
    (last : Instruction) (ss : List Stmt) (region : Option RegionId) (entries : List NodeId) : Prop where
  ends : k.last? = some last
  lowered : Does (Lower.block m k.insts) g.vars ss g.vars
  sheltered : Sheltered m met g k.start region entries
  node : ∀ place, Sites blocks met place → (g.node i).own =
    { drawn place k last { start := k.start, stmts := ss } with region, catchSuccs := entries }
  test : Lower.IsTest last → ∀ place, Sites blocks met place →
    place last.target = place (k.fall.getD (-1)) ∨
      (place last.target).isSome ∧ (place (k.fall.getD (-1))).isSome

theorem drawnKept (place : Int → Option NodeId) (k : Block) (last : Instruction) (x : Node) :
    (drawn place k last x).region = x.region ∧ (drawn place k last x).catchSuccs = x.catchSuccs ∧
      (drawn place k last x).start = x.start ∧
      ((drawn place k last x).stmts = x.stmts ∨ (drawn place k last x).stmts = x.stmts.dropLast) := by
  have reached : ∀ t (y : Node), (y.reach t).region = y.region ∧ (y.reach t).catchSuccs = y.catchSuccs ∧
      (y.reach t).start = y.start ∧ (y.reach t).stmts = y.stmts := by
    intro t y
    cases t <;> exact ⟨rfl,rfl,rfl,rfl⟩
  have fallen : ∀ t (y : Node), (y.fallTo t).region = y.region ∧ (y.fallTo t).catchSuccs = y.catchSuccs ∧
      (y.fallTo t).start = y.start ∧ (y.fallTo t).stmts = y.stmts := by
    intro t y
    cases t <;> exact ⟨rfl,rfl,rfl,rfl⟩
  unfold drawn
  dsimp only
  split
  case h_5 | h_6 =>
    split
    · obtain ⟨region,catchSuccs,start,stmts⟩ := reached (place last.target) { x with stmts := x.stmts.dropLast }
      exact ⟨region,catchSuccs,start,.inr stmts⟩
    · simp [reached]
  all_goals simp [reached,fallen]

theorem Sheltered.grow {g h : Graph} {o : Int} {region : Option RegionId} {entries : List NodeId}
    (sheltered : Sheltered m met g o region entries)
    (regions : ∀ (r : RegionId) (q : Region), g.regions[r]? = some q → h.regions[r]? = some q) :
    Sheltered m (met ++ more) h o region entries := by
  unfold Sheltered at sheltered ⊢
  split at sheltered
  · exact sheltered
  · obtain ⟨r,q,here,found,same,u,member,key,lists⟩ := sheltered
    exact ⟨r,q,here,regions r q found,same,u,member,key,lists.imp fun c h => And.imp_right fun place =>
      place.more more⟩

theorem Renders.stretch {f : Node → Node} {last : Instruction} {ss : List Stmt}
    {region : Option RegionId} {entries : List NodeId}
    (renders : Renders m blocks met b.graph i k last ss region entries) (inside : i < b.graph.store.size)
    (other : i ≠ n) (stretch : Stretch m blocks met more n f b b') :
    Renders m blocks (met ++ more) b'.graph i k last ss region entries where
  ends := renders.ends
  lowered := (Lower.Settles.block m k.insts _ _ _ renders.lowered).2 _ stretch.vars
  sheltered := renders.sheltered.grow stretch.onward.regions
  node place sites := (stretch.others i inside other).trans (renders.node place sites.before)
  test isTest place sites := renders.test isTest place sites.before

structure Drawn (m : Method) (blocks met : List Block) (done : Nat) (b : Builder) : Prop where
  standing : Standing m blocks met b
  queue : b.queue = met.drop done
  built : ∀ i k, i < done → met[i]? = some k →
    ∃ last ss region entries, Renders m blocks met b.graph i k last ss region entries
  waiting : ∀ i, done ≤ i → (b.graph.node i).own = Node.own { start := (b.graph.node i).start }

theorem Standing.lowerBlock {ss : List Stmt} (standing : Standing m blocks met b)
    (did : Does (lowerBlock m k) b ss b') :
    Stretch m blocks met [] n id b b' ∧ Does (Lower.block m k.insts) b'.graph.vars ss b'.graph.vars := by
  obtain ⟨vars,lowered,rfl⟩ := didLowerBlock did
  obtain ⟨within,again⟩ := Lower.Settles.block m k.insts _ _ _ lowered
  have spread : Spread blocks met [] b { b with graph := { b.graph with vars } } :=
    standing.known.redraw rfl rfl (fun _ => rfl) fun _ => rfl
  refine ⟨{
    onward := spread.onward standing.tabled n
    woven := ⟨standing.woven.listed,standing.woven.normal.congr rfl fun _ _ => ⟨rfl,rfl⟩,
      standing.woven.raised.congr rfl fun _ _ => ⟨rfl,rfl⟩,standing.woven.marked⟩
    vars := within
    size := Nat.le_refl _
    others := fun _ _ _ => rfl
    fresh := fun i beyond _ => ?_
    here := rfl
    marks := fun _ => id },again vars (.refl vars)⟩
  show (b.graph.node i).own = Node.own { start := (b.graph.node i).start }
  rw [Graph.nodeOutside beyond]

theorem didBuildNodeDrawn {block : Block} {rest : List Block} {u : Unit} {done : Nat}
    (drawn : Drawn m blocks met done b) (next : b.queue = block :: rest)
    (did : Does (buildNode m blocks block) { b with queue := rest } u b') :
    ∃ more, Drawn m blocks (met ++ more) (done + 1) b' := by
  have queue := drawn.queue.symm.trans next
  have here : met[done]? = some block := by
    rw [← Nat.add_zero done,← List.getElem?_drop,queue,List.getElem?_cons_zero]
  have short := (List.getElem?_eq_some_iff.mp here).1
  have found := (drawn.standing.known.known block.start done).mpr ⟨block,here,rfl⟩
  have inside : done < b.graph.store.size := drawn.standing.known.size ▸ short
  have standing : Standing m blocks met { b with queue := rest } :=
    ⟨⟨drawn.standing.known.known,drawn.standing.known.size,drawn.standing.known.starts,
      drawn.standing.known.inside⟩,⟨drawn.standing.tabled.keyed,drawn.standing.tabled.all⟩,
      drawn.standing.woven⟩
  unfold buildNode at did
  obtain ⟨_,_,got,did⟩ := doesBind.mp did
  obtain ⟨rfl,rfl⟩ := doesGet.mp got
  simp only [found] at did
  obtain ⟨ss,b₁,lowered,did⟩ := doesBind.mp did
  obtain ⟨u₁,b₂,stated,did⟩ := doesBind.mp did
  obtain ⟨first,lowers⟩ := standing.lowerBlock (n := done) lowered
  have inside₁ := Nat.lt_of_lt_of_le inside first.size
  have second := first.standing.modify inside₁ (f := fun x => { x with stmts := ss }) (fun _ => rfl)
    fun _ => ⟨rfl,rfl,rfl,rfl,rfl,rfl,rfl⟩
  rw [doesModifyGraph] at stated
  rw [← stated] at second
  have inside₂ := Nat.lt_of_lt_of_le inside₁ second.size
  split at did
  · rename_i last ends
    obtain ⟨u₂,b₃,linked,guards⟩ := doesBind.mp did
    obtain ⟨more,f,third,draws⟩ := second.standing.linkNode inside₂ linked
    have inside₃ := Nat.lt_of_lt_of_le inside₂ third.size
    obtain ⟨more',f',region,entries,fourth,sheltered,enters⟩ := third.standing.protect inside₃ guards
    have whole := first.trans (second.trans (third.trans fourth))
    rw [List.nil_append,List.nil_append] at whole
    have blank := drawn.waiting done (Nat.le_refl _)
    rw [drawn.standing.known.starts done block here] at blank
    have bounds : ∀ i < done, i < b.graph.store.size := fun i before => Nat.lt_trans before inside
    refine ⟨more ++ more',whole.standing,?_,fun i k before there => ?_,fun i beyond => ?_⟩
    · rw [whole.onward.queue,List.drop_append_of_le_length short,← List.tail_drop,queue,List.tail_cons]
    · rcases Nat.lt_succ_iff_lt_or_eq.mp before with old | rfl
      · rw [List.getElem?_append_left (Nat.lt_trans old short)] at there
        obtain ⟨last,ss,region,entries,renders⟩ := drawn.built i k old there
        exact ⟨last,ss,region,entries,Renders.stretch (b := { b with queue := rest })
          ⟨renders.ends,renders.lowered,renders.sheltered,renders.node,renders.test⟩
          (bounds i old) (Nat.ne_of_lt old) whole⟩
      · rw [List.getElem?_append_left short] at there
        obtain rfl := Option.some.inj (here.symm.trans there)
        have sheltered' : Sheltered m (met ++ (more ++ more')) b'.graph block.start region entries := by
          simpa using sheltered
        have sites : ∀ place, Sites blocks (met ++ (more ++ more')) place →
            Sites blocks (met ++ [] ++ [] ++ more) place := fun place sites => by
          rw [← List.append_assoc] at sites
          simpa using sites.before
        refine ⟨last,ss,region,entries,ends,?_,sheltered',fun place fits => ?_,fun isTest place fits => ?_⟩
        · exact (Lower.Settles.block m block.insts _ _ _ lowers).2 _
            (second.vars.trans (third.vars.trans fourth.vars))
        · obtain ⟨same,-⟩ := draws place (sites place fits)
          obtain ⟨none,nil,-⟩ := drawnKept place block last { start := block.start, stmts := ss }
          refine whole.here.trans ?_
          show f' (f { (b.graph.node i).own with stmts := ss }) = _
          rw [blank,same]
          exact enters _ none nil
        · exact (draws place (sites place fits)).2 isTest
    · have other := Nat.ne_of_gt beyond
      by_cases old : i < b.graph.store.size
      · have same := whole.others i old other
        have start : (b'.graph.node i).start = (b.graph.node i).start :=
          show (b'.graph.node i).own.start = (b.graph.node i).own.start from congrArg Node.start same
        rw [same,start]
        exact drawn.waiting i (Nat.le_of_lt beyond)
      · exact whole.fresh i (Nat.le_of_not_lt old) other
  · obtain ⟨_,_,linked,-⟩ := doesBind.mp did
    exact absurd linked doesThrow

theorem didBuildQueueDrawn {fuel : Nat} {u : Unit} {done : Nat}
    (did : Does (buildQueue m blocks fuel) b u b') (drawn : Drawn m blocks met done b)
    (enough : fuel + done = blocks.length) :
    ∃ more, Drawn m blocks (met ++ more) (met ++ more).length b' := by
  have finish : ∀ {met : List Block} {done : Nat} {b : Builder}, Drawn m blocks met done b →
      met.length ≤ done → Drawn m blocks met met.length b := fun {met done b} drawn all =>
    { drawn with
      queue := by rw [drawn.queue,List.drop_eq_nil_of_le all,List.drop_length]
      built := fun i k before => drawn.built i k (Nat.lt_of_lt_of_le before all)
      waiting := fun i beyond => by rw [Graph.nodeOutside (drawn.standing.known.size ▸ beyond)] }
  induction fuel generalizing b met done with
  | zero =>
    obtain ⟨-,rfl⟩ := doesPure.mp did
    refine ⟨[],?_⟩
    rw [List.append_nil]
    exact finish drawn (by have := drawn.standing.known.bounded; omega)
  | succ fuel ih =>
    simp only [buildQueue,doesBind,doesGet] at did
    obtain ⟨_,_,⟨rfl,rfl⟩,did⟩ := did
    split at did
    · rename_i empty
      obtain ⟨-,rfl⟩ := doesPure.mp did
      refine ⟨[],?_⟩
      rw [List.append_nil]
      exact finish drawn (List.drop_eq_nil_iff.mp (drawn.queue.symm.trans empty))
    · rename_i block rest next
      simp only [doesBind,doesSet] at did
      obtain ⟨_,_,rfl,_,b₁,built,did⟩ := did
      obtain ⟨more,drawn⟩ := didBuildNodeDrawn drawn next built
      obtain ⟨more',drawn⟩ := ih did drawn (by omega)
      rw [List.append_assoc] at drawn
      exact ⟨more ++ more',drawn⟩

theorem Drawn.start (m : Method) {g : Graph} {block : Block} (inside : block ∈ blocks)
    (store : g.store = #[{ start := block.start }]) (nodes : g.nodes = [0]) (regions : g.regions = #[]) :
    Drawn m blocks [block] 0 { graph := g, known := [(block.start,0)], queue := [block] } := by
  have worked := Worked.start m inside store regions
  have plain : ∀ i, g.node i = { start := (g.node i).start } := by
    intro i
    rw [Graph.node,store]
    cases i <;> rfl
  have paired : ∀ out into : Node → List NodeId, (∀ o, out { start := o } = []) →
      (∀ o, into { start := o } = []) → g.Paired out into := fun out into outs intos =>
    ⟨fun a _ b leads => by rw [plain,outs] at leads; contradiction,
      fun b _ a comes => by rw [plain,intos] at comes; contradiction,
      fun a _ => by rw [plain,outs]; exact List.nodup_nil,
      fun b _ => by rw [plain,intos]; exact List.nodup_nil⟩
  refine ⟨⟨worked.known,worked.tabled,by rw [nodes,store]; rfl,paired _ _ (fun _ => rfl) fun _ => rfl,
    paired _ _ (fun _ => rfl) fun _ => rfl,fun r member => ?_⟩,rfl,
    fun i k before => absurd before (Nat.not_lt_zero i),fun i _ => congrArg Node.own (plain i)⟩
  rw [regions] at member
  exact absurd member (Array.not_mem_empty r)

end Flow
end RegCode
