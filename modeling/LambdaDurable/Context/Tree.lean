import LambdaDurable.Context.Effect
import LambdaDurable.Library.Transition
import Mathlib.Data.List.Nodup

/-!
# Operation IDs over a tree of contexts

An ID is a name and a counter behind the hash of the operation that opened the
context. The counter and the hash can be read off an ID; where the hash ends and
the name begins can not, and the root has no hash.
-/

namespace LambdaDurable

/-! ## Separators -/

theorem cut_at_first {α : Type} {a : α} {xs us ys vs : List α} (hx : a ∉ xs) (hu : a ∉ us)
    (h : xs ++ a :: ys = us ++ a :: vs) : xs = us ∧ ys = vs := by
  induction xs generalizing us with
  | nil =>
    cases us with
    | nil => simpa using h
    | cons u us =>
      have hhead : a = u := (List.cons.inj h).1
      exact absurd (hhead ▸ List.mem_cons_self) hu
  | cons x xs ih =>
    cases us with
    | nil =>
      have hhead : x = a := (List.cons.inj h).1
      exact absurd (hhead ▸ List.mem_cons_self) hx
    | cons u us =>
      obtain ⟨rfl, htail⟩ := List.cons.inj h
      have hrest := ih (fun hm => hx (.tail _ hm)) (fun hm => hu (.tail _ hm)) htail
      exact ⟨congrArg (x :: ·) hrest.1, hrest.2⟩

theorem cut_at_last {α : Type} {a : α} {xs us ys vs : List α} (hy : a ∉ ys) (hv : a ∉ vs)
    (h : xs ++ a :: ys = us ++ a :: vs) : xs = us ∧ ys = vs := by
  have hrev : ys.reverse ++ a :: xs.reverse = vs.reverse ++ a :: us.reverse := by
    simpa using congrArg List.reverse h
  have hcut := cut_at_first (by simpa using hy) (by simpa using hv) hrev
  exact ⟨List.reverse_injective hcut.2, List.reverse_injective hcut.1⟩

theorem repr_injective {m n : Nat} (h : m.repr.toList = n.repr.toList) : m = n := by
  rw [Nat.toList_repr, Nat.toList_repr] at h
  have hread := congrArg (fun ds => Nat.ofDigitChars 10 ds 0) h
  simpa only [Nat.ofDigitChars_toDigits (by decide : 1 < 10) (by decide)] using hread

/-! ## `hash_id` -/

/-- `{byte:02x}` -/
def hexByte (byte : UInt8) : List Char :=
  [Nat.digitChar (byte.toNat / 16), Nat.digitChar (byte.toNat % 16)]

/-- `sha256` is the digest of the `sha2` crate. -/
def hashId (sha256 : String → List UInt8) (id : String) : String :=
  String.ofList (((sha256 id).take 16).flatMap hexByte)

theorem colon_notMem_hashId (sha256 : String → List UInt8) (id : String) :
    ':' ∉ (hashId sha256 id).toList := by
  intro h
  rw [hashId, String.toList_ofList, List.mem_flatMap] at h
  obtain ⟨byte, -, hmem⟩ := h
  simp [hexByte] at hmem

/-! ## What an ID tells -/

namespace ExecutionContext

variable (ctx : ExecutionContext)

theorem operationId_of_root (h : ctx.currentParentId = none) (name : Option String) (n : Nat) :
    (ctx.operationId name n).toList = (name.getD "op").toList ++ '_' :: n.repr.toList := by
  cases name <;> simp [operationId, h, toString]

theorem operationId_of_parent {p : String} (h : ctx.currentParentId = some p)
    (name : Option String) (n : Nat) : (ctx.operationId name n).toList =
      p.toList ++ ':' :: (name.getD "op").toList ++ '_' :: n.repr.toList := by
  cases name <;> simp [operationId, h, toString]

end ExecutionContext

/-! ## The tree -/

/-- What one call of `next_operation_id` was given and gave. -/
structure Issued where
  context : Nat
  counter : Nat
  name : Option String
  id : String
  deriving DecidableEq

def Issued.place (e : Issued) : Nat × Nat := (e.context, e.counter)

namespace ContextTree

/-- `opened` are the positions in `issued` a context below the root was made for. -/
structure State where
  contexts : List ExecutionContext
  counters : Nat → Nat := fun _ => 0
  issued : List Issued := []
  opened : List Nat := []

inductive Label
  | next (context : Nat) (name : Option String)
  -- `with_parent_id(hash_id(id))`, once for an operation
  | child (operation : Nat)

def State.take (s : State) (c : Nat) (ctx : ExecutionContext) (name : Option String) : State :=
  let counter := s.counters ctx.operationCounter
  { s with
    counters := Function.update s.counters ctx.operationCounter (counter + 1)
    issued := s.issued ++ [⟨c, counter, name, ctx.operationId name counter⟩] }

def State.enter (s : State) (k : Nat) (e : Issued) (ctx : ExecutionContext) : State :=
  let child := { ctx with
    currentParentId := some (ctx.hashId e.id), operationCounter := s.contexts.length }
  { s with contexts := s.contexts ++ [child], opened := s.opened ++ [k] }

def step (s : State) : Label → Option State
  | .next c name => s.contexts[c]?.map fun ctx => s.take c ctx name
  | .child k =>
    if k ∈ s.opened then none
    else s.issued[k]?.bind fun e => s.contexts[e.context]?.map fun ctx => s.enter k e ctx

def machine (hash : String → String) : Transition.Machine State Label where
  init s := ∃ ctx : ExecutionContext, ctx.currentParentId = none ∧ ctx.operationCounter = 0 ∧
    ctx.hashId = hash ∧ s = { contexts := [ctx] }
  step := step

theorem step_cases {s s' : State} {l : Label} (h : step s l = some s') :
    (∃ c name ctx, l = .next c name ∧ s.contexts[c]? = some ctx ∧ s' = s.take c ctx name) ∨
      ∃ k e ctx, l = .child k ∧ k ∉ s.opened ∧ s.issued[k]? = some e ∧
        s.contexts[e.context]? = some ctx ∧ s' = s.enter k e ctx := by
  cases l with
  | next c name =>
    obtain ⟨ctx, hctx, rfl⟩ := Option.map_eq_some_iff.mp h
    exact Or.inl ⟨c, name, ctx, rfl, hctx, rfl⟩
  | child k =>
    simp only [step] at h
    split at h
    · cases h
    · rename_i hfresh
      obtain ⟨e, he, hmap⟩ := Option.bind_eq_some_iff.mp h
      obtain ⟨ctx, hctx, rfl⟩ := Option.map_eq_some_iff.mp hmap
      exact Or.inr ⟨k, e, ctx, rfl, hfresh, he, hctx, rfl⟩

/-- The shape of the tree: what a context was made from, and what an ID was made of. -/
structure Grown (hash : String → String) (s : State) : Prop where
  size : s.contexts.length = s.opened.length + 1
  root : ∀ ctx, s.contexts[0]? = some ctx → ctx.currentParentId = none
  own : ∀ c (ctx : ExecutionContext), s.contexts[c]? = some ctx →
    ctx.operationCounter = c ∧ ctx.hashId = hash
  opener : ∀ c ctx, s.contexts[c + 1]? = some ctx → ∃ k e, s.opened[c]? = some k ∧
    s.issued[k]? = some e ∧ e.context ≤ c ∧ ctx.currentParentId = some (hash e.id)
  once : s.opened.Nodup
  formed : ∀ e ∈ s.issued, e.counter < s.counters e.context ∧ ∃ ctx,
    s.contexts[e.context]? = some ctx ∧ e.id = ctx.operationId e.name e.counter
  distinct : (s.issued.map Issued.place).Nodup

variable {hash : String → String} {s s' : State}

theorem getElem?_of_append {α : Type} {xs : List α} {i : Nat} {x y : α}
    (h : (xs ++ [y])[i]? = some x) : xs[i]? = some x ∨ i = xs.length ∧ x = y := by
  rw [List.getElem?_append] at h
  split at h
  · exact Or.inl h
  · right
    have hzero : i - xs.length = 0 := by
      have hlt := List.getElem?_eq_some_iff.mp h
      obtain ⟨hlt, -⟩ := hlt
      simpa using hlt
    rw [hzero] at h
    exact ⟨by omega, by simpa using h.symm⟩

theorem Grown.start {ctx : ExecutionContext} (hroot : ctx.currentParentId = none)
    (hcounter : ctx.operationCounter = 0) (hhash : ctx.hashId = hash) :
    Grown hash { contexts := [ctx] } where
  size := rfl
  root ctx' h := by
    obtain rfl : ctx = ctx' := by simpa using h
    exact hroot
  own c ctx' h := by
    cases c with
    | zero =>
      obtain rfl : ctx = ctx' := by simpa using h
      exact ⟨hcounter, hhash⟩
    | succ c => cases h
  opener c ctx' h := by cases h
  once := List.nodup_nil
  formed e h := by cases h
  distinct := List.nodup_nil

theorem Grown.take (g : Grown hash s) {c : Nat} {ctx : ExecutionContext}
    (hctx : s.contexts[c]? = some ctx) (name : Option String) : Grown hash (s.take c ctx name) where
  size := g.size
  root := g.root
  own := g.own
  opener c' ctx' h := by
    obtain ⟨k, e, hk, he, hle, hp⟩ := g.opener c' ctx' h
    refine ⟨k, e, hk, ?_, hle, hp⟩
    exact (List.getElem?_append_left (List.getElem?_eq_some_iff.mp he).1).trans he
  once := g.once
  formed e h := by
    have hcounter : ctx.operationCounter = c := (g.own c ctx hctx).1
    simp only [State.take, hcounter]
    obtain hold | hnew := List.mem_append.mp h
    · obtain ⟨hlt, hformed⟩ := g.formed e hold
      refine ⟨?_, hformed⟩
      by_cases heq : e.context = c
      · rw [heq, Function.update_self]
        rw [heq] at hlt
        omega
      · rwa [Function.update_of_ne heq]
    · obtain rfl := List.mem_singleton.mp hnew
      refine ⟨?_, ctx, hctx, rfl⟩
      simp [hcounter]
  distinct := by
    simp only [State.take, List.map_append, List.map_cons, List.map_nil]
    refine List.nodup_append.mpr ⟨g.distinct, List.nodup_singleton _, ?_⟩
    intro q hq q' hq' heq
    obtain ⟨e, he, rfl⟩ := List.mem_map.mp hq
    obtain rfl := List.mem_singleton.mp hq'
    obtain ⟨hcontext, hcount⟩ := Prod.mk.inj heq
    have hlt := (g.formed e he).1
    rw [hcontext, hcount, (g.own c ctx hctx).1] at hlt
    exact Nat.lt_irrefl _ hlt

theorem Grown.enter (g : Grown hash s) {k : Nat} {e : Issued} {ctx : ExecutionContext}
    (hk : k ∉ s.opened) (he : s.issued[k]? = some e) (hctx : s.contexts[e.context]? = some ctx) :
    Grown hash (s.enter k e ctx) where
  size := by simp [State.enter, g.size]
  root ctx' h := by
    have hlen : 0 < s.contexts.length := by have := g.size; omega
    exact g.root ctx' ((List.getElem?_append_left hlen).symm.trans h)
  own c ctx' h := by
    obtain hold | ⟨rfl, rfl⟩ := getElem?_of_append h
    · exact g.own c ctx' hold
    · exact ⟨rfl, (g.own _ ctx hctx).2⟩
  opener c ctx' h := by
    obtain hold | ⟨hc, rfl⟩ := getElem?_of_append h
    · obtain ⟨k', e', hk', he', hle, hp⟩ := g.opener c ctx' hold
      refine ⟨k', e', ?_, he', hle, hp⟩
      exact (List.getElem?_append_left (List.getElem?_eq_some_iff.mp hk').1).trans hk'
    · have hc' : c = s.opened.length := by have := g.size; omega
      have hlt : e.context < s.contexts.length := (List.getElem?_eq_some_iff.mp hctx).1
      refine ⟨k, e, ?_, he, by omega, ?_⟩
      · rw [hc']
        exact List.getElem?_concat_length
      · exact congrArg (fun f => some (f e.id)) (g.own _ ctx hctx).2
  once := List.nodup_append.mpr ⟨g.once, List.nodup_singleton k, by
    intro a ha b hb heq
    exact hk (List.mem_singleton.mp hb ▸ heq ▸ ha)⟩
  formed e' h := by
    obtain ⟨hlt, ctx', hctx', hid⟩ := g.formed e' h
    refine ⟨hlt, ctx', ?_, hid⟩
    exact (List.getElem?_append_left (List.getElem?_eq_some_iff.mp hctx').1).trans hctx'
  distinct := g.distinct

theorem grown_of_reachable (h : (machine hash).Reachable s) : Grown hash s := by
  refine h.invariant ?_ ?_
  · rintro s ⟨ctx, hroot, hcounter, hhash, rfl⟩
    exact .start hroot hcounter hhash
  · intro s l s' _ g hstep
    obtain ⟨c, name, ctx, -, hctx, rfl⟩ | ⟨k, e, ctx, -, hk, he, hctx, rfl⟩ := step_cases hstep
    · exact g.take hctx name
    · exact g.enter hk he hctx

/-! ## Uniqueness -/

def Unique (s : State) : Prop :=
  ∀ e ∈ s.issued, ∀ e' ∈ s.issued, e.place ≠ e'.place → e.id ≠ e'.id

/-- The `current_parent_id` an ID was made with. -/
def State.parentId (s : State) (e : Issued) : Option String :=
  s.contexts[e.context]?.bind (·.currentParentId)

/-- A name given at the root that spells the prefix and the name of an operation
below the root which has the same counter. -/
def Shadowed (s : State) : Prop :=
  ∃ r ∈ s.issued, ∃ e ∈ s.issued, ∃ p, s.parentId r = none ∧ s.parentId e = some p ∧
    r.counter = e.counter ∧ r.name = some (p ++ ":" ++ e.name.getD "op")

/-- `e` is the ID of an operation of the root. -/
structure AtRoot (s : State) (e : Issued) : Prop where
  context : e.context = 0
  parentId : s.parentId e = none
  reads : e.id.toList = (e.name.getD "op").toList ++ '_' :: e.counter.repr.toList

/-- `e` is the ID of an operation in the context made for `o`. -/
structure Below (hash : String → String) (s : State) (e o : Issued) : Prop where
  opener : ∃ c k, e.context = c + 1 ∧ s.opened[c]? = some k ∧ s.issued[k]? = some o
  higher : o.context < e.context
  parentId : s.parentId e = some (hash o.id)
  reads : e.id.toList =
    (hash o.id).toList ++ ':' :: ((e.name.getD "op").toList ++ '_' :: e.counter.repr.toList)

theorem Grown.place (g : Grown hash s) {e : Issued} (he : e ∈ s.issued) :
    AtRoot s e ∨ ∃ o, Below hash s e o := by
  obtain ⟨-, ctx, hctx, hid⟩ := g.formed e he
  cases hc : e.context with
  | zero =>
    rw [hc] at hctx
    have hnone := g.root ctx hctx
    have hparent : s.parentId e = none := by simp [State.parentId, hc, hctx, hnone]
    exact Or.inl ⟨hc, hparent, hid ▸ ctx.operationId_of_root hnone e.name e.counter⟩
  | succ c =>
    rw [hc] at hctx
    obtain ⟨k, o, hk, ho, hle, hp⟩ := g.opener c ctx hctx
    have hparent : s.parentId e = some (hash o.id) := by simp [State.parentId, hc, hctx, hp]
    have hreads := ctx.operationId_of_parent hp e.name e.counter
    rw [← hid, List.append_assoc, List.cons_append] at hreads
    exact Or.inr ⟨o, ⟨c, k, hc, hk, ho⟩, by omega, hparent, hreads⟩

/-- A context is made for an operation once. -/
theorem Grown.context_of_opener (g : Grown hash s) {e e' o : Issued} (h : Below hash s e o)
    (h' : Below hash s e' o) : e.context = e'.context := by
  obtain ⟨c, k, hc, hk, hko⟩ := h.opener
  obtain ⟨c', k', hc', hk', hko'⟩ := h'.opener
  have hnodup : s.issued.Nodup := g.distinct.of_map _
  obtain ⟨hlt, heq⟩ := List.getElem?_eq_some_iff.mp hko
  obtain ⟨hlt', heq'⟩ := List.getElem?_eq_some_iff.mp hko'
  obtain rfl : k = k' := hnodup.getElem_inj_iff.mp (heq.trans heq'.symm)
  obtain ⟨hlt, heq⟩ := List.getElem?_eq_some_iff.mp hk
  obtain ⟨hlt', heq'⟩ := List.getElem?_eq_some_iff.mp hk'
  obtain rfl : c = c' := g.once.getElem_inj_iff.mp (heq.trans heq'.symm)
  exact hc.trans hc'.symm

section

variable {sha256 : String → List UInt8}

theorem counter_of_id {e e' : Issued} {p p' : List Char}
    (h : e.id.toList = p ++ '_' :: e.counter.repr.toList)
    (h' : e'.id.toList = p' ++ '_' :: e'.counter.repr.toList) (hid : e.id = e'.id) :
    p = p' ∧ e.counter = e'.counter := by
  rw [hid, h'] at h
  have hno : ∀ n : Nat, '_' ∉ n.repr.toList := fun n => by simp
  obtain ⟨hp, hn⟩ := cut_at_last (hno _) (hno _) h
  exact ⟨hp.symm, repr_injective hn.symm⟩

/-- At the root and below it the same ID is possible, with such a name only. -/
theorem shadowed_of_clash {r e o : Issued} (hr : r ∈ s.issued) (he : e ∈ s.issued)
    (hroot : AtRoot s r) (hbelow : Below (hashId sha256) s e o) (hid : r.id = e.id) :
    Shadowed s := by
  have hreads := hbelow.reads
  rw [← List.cons_append, ← List.append_assoc] at hreads
  obtain ⟨hname, hcounter⟩ := counter_of_id hroot.reads hreads hid
  refine ⟨r, hr, e, he, _, hroot.parentId, hbelow.parentId, hcounter, ?_⟩
  cases hn : r.name with
  | none =>
    have hcolon : ':' ∈ "op".toList := by
      rw [hn] at hname
      exact hname ▸ List.mem_append_right _ List.mem_cons_self
    exact absurd hcolon (by decide)
  | some n =>
    rw [hn] at hname
    refine congrArg some (String.toList_inj.mp ?_)
    simpa using hname

theorem Grown.shadowed (g : Grown (hashId sha256) s)
    (hinj : ∀ e ∈ s.issued, ∀ e' ∈ s.issued,
      hashId sha256 e.id = hashId sha256 e'.id → e.id = e'.id) (n : Nat) :
    ∀ e ∈ s.issued, ∀ e' ∈ s.issued, e.context ≤ n →
      e.place ≠ e'.place → e.id = e'.id → Shadowed s := by
  -- induction on the depth of the context, through the operations the contexts were made for
  induction n with
  | zero =>
    intro e he e' he' hn hne hid
    have hroot : AtRoot s e := (g.place he).resolve_right fun ⟨o, ho⟩ => by
      have := ho.higher
      omega
    obtain hroot' | ⟨o', ho'⟩ := g.place he'
    · have hcounter := (counter_of_id hroot.reads hroot'.reads hid).2
      exact absurd (Prod.ext (hroot.context.trans hroot'.context.symm) hcounter) hne
    · exact shadowed_of_clash he he' hroot ho' hid
  | succ n ih =>
    intro e he e' he' hn hne hid
    obtain hroot | ⟨o, ho⟩ := g.place he
    · exact ih e he e' he' (hroot.context ▸ Nat.zero_le n) hne hid
    obtain hroot' | ⟨o', ho'⟩ := g.place he'
    · exact shadowed_of_clash he' he hroot' ho hid.symm
    have hreads := ho.reads
    rw [hid, ho'.reads] at hreads
    obtain ⟨hhash, hrest⟩ := cut_at_first (colon_notMem_hashId sha256 _)
      (colon_notMem_hashId sha256 _) hreads
    have hcounter : e'.counter = e.counter := by
      have hno : ∀ n : Nat, '_' ∉ n.repr.toList := fun n => by simp
      exact repr_injective (cut_at_last (hno _) (hno _) hrest).2
    have hmem : o ∈ s.issued := by
      obtain ⟨-, k, -, -, hk⟩ := ho.opener
      exact List.mem_of_getElem? hk
    have hmem' : o' ∈ s.issued := by
      obtain ⟨-, k, -, -, hk⟩ := ho'.opener
      exact List.mem_of_getElem? hk
    have hoid : o.id = o'.id := hinj o hmem o' hmem' (String.toList_inj.mp hhash.symm)
    by_cases hsame : o = o'
    · subst hsame
      exact absurd (Prod.ext (g.context_of_opener ho ho') hcounter.symm) hne
    · have hle : o.context ≤ n := by have := ho.higher; omega
      refine ih o hmem o' hmem' hle ?_ hoid
      intro hpair
      exact hsame (List.inj_on_of_nodup_map g.distinct hmem hmem' hpair)

theorem Grown.clash_of_shadowed (g : Grown hash s) (h : Shadowed s) : ¬ Unique s := by
  obtain ⟨r, hr, e, he, p, hnone, hsome, hcounter, hname⟩ := h
  intro hunique
  have hne : r.place ≠ e.place := by
    intro heq
    have hcontext := (Prod.mk.inj heq).1
    rw [State.parentId, hcontext] at hnone
    exact absurd (hnone.symm.trans hsome) nofun
  apply hunique r hr e he hne
  obtain hroot | ⟨o, ho⟩ := g.place hr
  · obtain hroot' | ⟨o', ho'⟩ := g.place he
    · exact absurd (hroot'.parentId.symm.trans hsome) nofun
    · obtain rfl : hash o'.id = p := Option.some.inj (ho'.parentId.symm.trans hsome)
      apply String.toList_inj.mp
      rw [hroot.reads, ho'.reads, hname, hcounter]
      simp
  · exact absurd (ho.parentId.symm.trans hnone) nofun

/-- The IDs of a run are different, unless some name at the root spells out an ID below it. -/
theorem ids_unique (h : (machine (hashId sha256)).Reachable s)
    (hinj : ∀ e ∈ s.issued, ∀ e' ∈ s.issued,
      hashId sha256 e.id = hashId sha256 e'.id → e.id = e'.id) : Unique s ↔ ¬ Shadowed s := by
  have g := grown_of_reachable h
  constructor
  · intro hunique hshadowed
    exact g.clash_of_shadowed hshadowed hunique
  · intro hclear e he e' he' hne hid
    exact hclear (g.shadowed hinj e.context e he e' he' le_rfl hne hid)

end

/-! ## A name that spells out an ID -/

/-- SHA-256 of the IDs in the runs below. -/
def digest (id : String) : List UInt8 :=
  match id with
  | "op_0" => [76, 169, 190, 173, 90, 134, 237, 221, 14, 217, 237, 136, 142, 192, 59, 78]
  | "child_1" => [149, 60, 90, 230, 76, 69, 2, 242, 2, 90, 22, 246, 12, 16, 34, 10]
  | "953c5ae64c4502f2025a16f60c10220a:x_0" =>
    [18, 159, 204, 161, 239, 80, 141, 236, 204, 248, 250, 155, 86, 164, 231, 125]
  | _ => []

def rootContext : ExecutionContext :=
  { durableExecutionArn := "arn", hashId := hashId digest }

/-- One operation, a child context, and an operation in it. -/
def calls (first : Option String) : List Label :=
  [.next 0 first, .next 0 (some "child"), .child 1, .next 1 (some "x")]

theorem rootContext_init : (machine (hashId digest)).init { contexts := [rootContext] } :=
  ⟨rootContext, rfl, rfl, rfl, rfl⟩

theorem ids_unique_unnamed : ∃ s, (machine (hashId digest)).Reachable s ∧
    s.issued.map (·.id) = ["op_0", "child_1", "953c5ae64c4502f2025a16f60c10220a:x_0"] ∧
      (Unique s ↔ ¬ Shadowed s) := by
  have hids : ((machine (hashId digest)).run { contexts := [rootContext] } (calls none)).map
      (fun s => s.issued.map (·.id)) =
        some ["op_0", "child_1", "953c5ae64c4502f2025a16f60c10220a:x_0"] := by decide +kernel
  obtain ⟨s, hrun, hs⟩ := Option.map_eq_some_iff.mp hids
  have hreach := Transition.Machine.run_reachable rootContext_init _ hrun
  refine ⟨s, hreach, hs, ids_unique hreach ?_⟩
  have hdigests : ∀ i ∈ s.issued.map (·.id), ∀ i' ∈ s.issued.map (·.id),
      hashId digest i = hashId digest i' → i = i' := by
    rw [hs]
    decide +kernel
  intro e he e' he'
  exact hdigests _ (List.mem_map_of_mem he) _ (List.mem_map_of_mem he')

/-- The hashes of the IDs of this run are different, and two calls give the same ID. -/
theorem spelled_clash : ¬ ∀ s, (machine (hashId digest)).Reachable s →
    (∀ e ∈ s.issued, ∀ e' ∈ s.issued, hashId digest e.id = hashId digest e'.id → e.id = e'.id) →
      Unique s := by
  intro hclaim
  have hissued : ((machine (hashId digest)).run { contexts := [rootContext] }
      (calls (some "953c5ae64c4502f2025a16f60c10220a:x"))).map State.issued = some
        [⟨0, 0, some "953c5ae64c4502f2025a16f60c10220a:x", "953c5ae64c4502f2025a16f60c10220a:x_0"⟩,
          ⟨0, 1, some "child", "child_1"⟩,
          ⟨1, 0, some "x", "953c5ae64c4502f2025a16f60c10220a:x_0"⟩] := by decide +kernel
  obtain ⟨s, hrun, hs⟩ := Option.map_eq_some_iff.mp hissued
  have hunique := hclaim s (Transition.Machine.run_reachable rootContext_init _ hrun)
    (by rw [hs]; decide +kernel)
  rw [Unique, hs] at hunique
  exact absurd hunique (by decide +kernel)

end ContextTree

end LambdaDurable
