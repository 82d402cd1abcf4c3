import LlvmPasses.Proofs.CodegenChecks
import LlvmPasses.Proofs.CodegenNamed
import LlvmPasses.Kaleido.Driver

/-!
# The left sides of assignments

`BinaryExprAST::codegen` casts the left side of `=` with `static_cast` and then
tests the pointer for null, which it never is. It goes on to the right side,
and reads the name of what it has cast when that is done. So a cast that is
wrong is one that code generation comes to at all: what is in time to keep it
from there is an exception, and nothing else. The exception that the test
should have thrown is never thrown.

An expression's demands are what code generation asks for, in the order in
which it asks, and the first that is not met is where it stops. A cast that is
wrong does not stop it. The casts made are those in front of the stop, which
the code generator's own count of them bears out: by induction over the tree,
each construct's walk settles its demands one after the other.

`codegen_misread_iff` makes a claim about code generation out of a condition on
the list of demands: nothing is ever taken for a variable that is none exactly
where every assignment to something else has an unmet demand in front of its
cast. Both directions come from `castsVariables_iff`, which reads the count of
wrong casts off the list. What an expression demands depends on the names in
scope, so the list is computed along with the scope that each construct leaves
behind.

The check of `Kaleido.Check` stands between the two. It stops where code
generation stops, and `Settles` says of it that it answers a list of demands:
it returns if all are met, stops as the first unmet one says if not, and has
counted the casts in front of it. Lists are settled in the order in which they
are appended, which is the order in which the code asks.
-/

namespace LlvmPasses.Kaleido

open StateError

/-- What code generation comes to ask: something it throws an exception for, a
name bound, a function known, the number of arguments right; that the left side
of an assignment be a variable where it is cast, which it does not ask; and
that it be one where it is used. -/
inductive Demand where
  | reported (met : Bool)
  | cast (met : Bool)
  | used (met : Bool)
  deriving DecidableEq, Repr

/-- Code generation stops at the demand. -/
def Demand.unmet : Demand → Bool
  | .reported met | .used met => !met
  | .cast _ => false

/-- The casts that go wrong in front of the first demand that is not met. -/
def miscastsOf : List Demand → Nat
  | [] => 0
  | d :: ds => if d.unmet then 0 else (if d = .cast false then 1 else 0) + miscastsOf ds

/-- The names in scope behind an expression. -/
def Expr.after (e : Expr) (s : Scope) : Scope := fun x => s x || e.leaks x

def afterOption (o : Option Expr) (s : Scope) : Scope := fun x => s x || leaksOption x o

/-- The names in scope in the body of a `var`. -/
def afterVars (vs : List (String × Option Expr)) (s : Scope) : Scope :=
  fun x => s x || leaksVars x vs || decide (x ∈ vs.map Prod.fst)

def Scope.bind (s : Scope) (x : String) : Scope := fun y => if y = x then true else s y

mutual

/-- The demands of an expression, in the order code generation makes them. -/
def Expr.demands (arity : String → Option Nat) (s : Scope) : Expr → List Demand
  | .number _ => []
  | .variable name => [.reported (s name)]
  | .varIn varNames body =>
      demandsVars arity s varNames ++ body.demands arity (afterVars varNames s)
  | .unary op operand =>
      operand.demands arity s ++ [.reported (arity ("unary".push op)).isSome]
  | .binary op lhs rhs =>
      if op = '=' then
        .cast lhs.isVariable :: (rhs.demands arity s ++
          match lhs with
          | .variable name => [.used true, .reported (rhs.after s name)]
          | _ => [.used false])
      else
        lhs.demands arity s ++ (rhs.demands arity (lhs.after s) ++
          if op ∈ ['+', '-', '*', '<'] then []
          else [.reported (arity ("binary".push op)).isSome])
  | .ifElse cond thn els =>
      cond.demands arity s ++ (thn.demands arity (cond.after s) ++
        els.demands arity (thn.after (cond.after s)))
  | .forIn varName start fin step body =>
      let inner := (start.after s).bind varName
      start.demands arity s ++ (body.demands arity inner ++
        (demandsOption arity (body.after inner) step ++
          fin.demands arity (afterOption step (body.after inner))))
  | .call callee args =>
      .reported (decide (arity callee = some args.length)) :: demandsArgs arity s args

def demandsOption (arity : String → Option Nat) (s : Scope) : Option Expr → List Demand
  | none => []
  | some e => e.demands arity s

def demandsVars (arity : String → Option Nat) (s : Scope) :
    List (String × Option Expr) → List Demand
  | [] => []
  | (var, init) :: vs =>
      demandsOption arity s init ++ demandsVars arity ((afterOption init s).bind var) vs

def demandsArgs (arity : String → Option Nat) (s : Scope) : List Expr → List Demand
  | [] => []
  | e :: es => e.demands arity s ++ demandsArgs arity (e.after s) es

end

theorem Expr.demands_ifElse (arity : String → Option Nat) (s : Scope) (cond thn els : Expr) :
    (Expr.ifElse cond thn els).demands arity s =
      cond.demands arity s ++ (thn.demands arity (cond.after s) ++
        els.demands arity (thn.after (cond.after s))) := by
  rw [Expr.demands]

/-! ## Checks and demands -/

theorem miscastsOf_append_none {ds : List Demand} (h : ds.find? Demand.unmet = none)
    (ds' : List Demand) : miscastsOf (ds ++ ds') = miscastsOf ds + miscastsOf ds' := by
  induction ds with
  | nil => exact (Nat.zero_add _).symm
  | cons d ds ih =>
      have hd : d.unmet = false := by
        cases hd : d.unmet with
        | false => rfl
        | true =>
            rw [List.find?_cons_of_pos hd] at h
            cases h
      rw [List.find?_cons_of_neg (by simp [hd])] at h
      simp only [List.cons_append, miscastsOf, hd, Bool.false_eq_true, if_false, ih h]
      omega

theorem miscastsOf_append_some {ds : List Demand} {d : Demand}
    (h : ds.find? Demand.unmet = some d) (ds' : List Demand) :
    miscastsOf (ds ++ ds') = miscastsOf ds := by
  induction ds with
  | nil => cases h
  | cons a ds ih =>
      cases ha : a.unmet with
      | true => simp only [List.cons_append, miscastsOf, ha, if_true]
      | false =>
          rw [List.find?_cons_of_neg (by simp [ha])] at h
          simp only [List.cons_append, miscastsOf, ha, Bool.false_eq_true, if_false, ih h]

/-- A check of some demands: it returns if all are met, the first that is not
says how it stops, and the casts that went wrong in front of it are counted. -/
def Settles {α : Type} (p : CheckM α) (s : Scope) (ds : List Demand) (a : α) (t : Scope) : Prop :=
  ∀ w : Walk, w.scope = s → match p w with
    | .ok a' w' => ds.find? Demand.unmet = none ∧ a' = a ∧ w'.scope = t ∧
        w'.miscasts = w.miscasts + miscastsOf ds
    | .error .misread w' => ds.find? Demand.unmet = some (.used false) ∧ 0 < miscastsOf ds ∧
        w'.miscasts = w.miscasts + miscastsOf ds
    | .error (.exception _) w' => ds.find? Demand.unmet = some (.reported false) ∧
        w'.miscasts = w.miscasts + miscastsOf ds

section

variable {α β : Type} {s t u : Scope} {ds ds' : List Demand}

theorem Settles.pure (a : α) (s : Scope) : Settles (pure a) s [] a s :=
  fun _ hw => ⟨rfl, rfl, hw, rfl⟩

theorem Settles.bind {p : CheckM α} {f : α → CheckM β} {a : α} {b : β}
    (hp : Settles p s ds a t) (hf : Settles (f a) t ds' b u) :
    Settles (p >>= f) s (ds ++ ds') b u := by
  intro w hw
  have hp := hp w hw
  rw [bind_apply, List.find?_append]
  cases h : p w with
  | ok a' w' =>
      rw [h] at hp
      obtain ⟨hnone, rfl, hscope, hcount⟩ := hp
      have hf := hf w' hscope
      rw [hnone, miscastsOf_append_none hnone, Option.none_or]
      simp only
      cases hr : f a' w' with
      | ok b' w'' =>
          rw [hr] at hf
          exact ⟨hf.1, hf.2.1, hf.2.2.1, by rw [hf.2.2.2, hcount, Nat.add_assoc]⟩
      | error e w'' =>
          rw [hr] at hf
          cases e with
          | misread => exact ⟨hf.1, by omega, by rw [hf.2.2, hcount, Nat.add_assoc]⟩
          | exception what => exact ⟨hf.1, by rw [hf.2, hcount, Nat.add_assoc]⟩
  | error e w' =>
      rw [h] at hp
      cases e with
      | misread =>
          rw [miscastsOf_append_some hp.1]
          exact ⟨congrArg (Option.or · _) hp.1, hp.2⟩
      | exception what =>
          rw [miscastsOf_append_some hp.1]
          exact ⟨congrArg (Option.or · _) hp.1, hp.2⟩

/-- A step that asks for nothing. -/
theorem Settles.step {p : CheckM α} {f : α → CheckM β} {a : α} {b : β}
    (hp : ∀ w : Walk, w.scope = s → ∃ w', p w = .ok a w' ∧ w'.scope = t ∧
      w'.miscasts = w.miscasts) (hf : Settles (f a) t ds b u) : Settles (p >>= f) s ds b u := by
  rw [← List.nil_append ds]
  refine Settles.bind (fun w hw => ?_) hf
  obtain ⟨w', hrun, hscope, hcount⟩ := hp w hw
  rw [hrun]
  exact ⟨rfl, rfl, hscope, hcount⟩

theorem Settles.last {p : CheckM α} {f : α → CheckM β} {a : α} {b : β}
    (hp : Settles p s ds a t) (hf : ∀ w : Walk, w.scope = t → ∃ w', f a w = .ok b w' ∧
      w'.scope = u ∧ w'.miscasts = w.miscasts) : Settles (p >>= f) s ds b u := by
  rw [← List.append_nil ds]
  refine hp.bind fun w hw => ?_
  obtain ⟨w', hrun, hscope, hcount⟩ := hf w hw
  rw [hrun]
  exact ⟨rfl, rfl, hscope, hcount⟩

/-- A demand that is met and no cast asks for nothing either. -/
theorem Settles.met {p : CheckM α} {a : α} {d : Demand} (hd : d.unmet = false)
    (hcast : d ≠ .cast false) (hp : Settles p s ds a t) : Settles p s (d :: ds) a t := by
  have hfind : (d :: ds).find? Demand.unmet = ds.find? Demand.unmet :=
    List.find?_cons_of_neg (by simp [hd])
  have hcount : miscastsOf (d :: ds) = miscastsOf ds := by
    simp only [miscastsOf, hd, hcast, Bool.false_eq_true, if_false, Nat.zero_add]
  unfold Settles at hp ⊢
  rwa [hfind, hcount]

theorem settles_bound {f : Bool → CheckM β} {b : β} {x : String}
    (hf : Settles (f (s x)) s ds b u) : Settles (bound x >>= f) s ds b u :=
  .step (fun w hw => ⟨w, by rw [← hw]; rfl, hw, rfl⟩) hf

theorem settles_bindName {f : Unit → CheckM β} {b : β} {x : String} {isBound : Bool}
    (hf : Settles (f ()) (fun y => if y = x then isBound else s y) ds b u) :
    Settles (bindName x isBound >>= f) s ds b u :=
  .step (fun w hw => ⟨_, rfl, by rw [← hw], rfl⟩) hf

theorem settles_askArity {arity : String → Option Nat} {f : Option Nat → CheckM β} {b : β}
    {x : String} (hf : Settles (f (arity x)) s ds b u) :
    Settles (askArity arity x >>= f) s ds b u :=
  .step (fun _ hw => ⟨_, rfl, hw, rfl⟩) hf

/-- What is no variable is cast, and used when the rest is done. -/
theorem settles_misread {p : CheckM α} {a : α} {b : β} {e : Expr} (he : e.isVariable = false)
    (hp : Settles p s ds a t) :
    Settles (noteCast e >>= fun _ => p >>= fun _ => (throw .misread : CheckM β)) s
      (.cast false :: (ds ++ [.used false])) b u := by
  intro w hw
  have hcast : noteCast e w = .ok () { w with miscasts := w.miscasts + 1 } := by
    show EStateM.Result.ok () (if e.isVariable then w else _) = _
    rw [he]
    rfl
  have hfind : (Demand.cast false :: (ds ++ [.used false])).find? Demand.unmet =
      (ds.find? Demand.unmet).or (some (.used false)) := by
    rw [List.find?_cons_of_neg (by simp [Demand.unmet]), List.find?_append]
    rfl
  have hcount : miscastsOf (.cast false :: (ds ++ [.used false])) =
      1 + miscastsOf (ds ++ [.used false]) := rfl
  have hp := hp { w with miscasts := w.miscasts + 1 } hw
  rw [bind_ok hcast, bind_apply, hfind, hcount, ← Nat.add_assoc]
  cases h : p { w with miscasts := w.miscasts + 1 } with
  | ok a' w' =>
      rw [h] at hp
      obtain ⟨hnone, -, -, hmiscasts⟩ := hp
      rw [hnone, miscastsOf_append_none hnone]
      exact ⟨rfl, by omega, hmiscasts⟩
  | error x w' =>
      rw [h] at hp
      cases x with
      | misread =>
          rw [hp.1, miscastsOf_append_some hp.1]
          exact ⟨rfl, by omega, hp.2.2⟩
      | exception what =>
          rw [hp.1, miscastsOf_append_some hp.1]
          exact ⟨rfl, hp.2⟩

theorem settles_noteCast {f : Unit → CheckM β} {b : β} {e : Expr} (hf : Settles (f ()) s ds b u) :
    Settles (noteCast e >>= f) s (.cast e.isVariable :: ds) b u := by
  have hcast : Settles (noteCast e) s [.cast e.isVariable] () s := by
    intro w hw
    show _ ∧ _ ∧ (if e.isVariable then w else _).scope = s ∧
      (if e.isVariable then w else _).miscasts = w.miscasts + miscastsOf [.cast e.isVariable]
    cases e.isVariable with
    | true => exact ⟨rfl, rfl, hw, rfl⟩
    | false => exact ⟨rfl, rfl, hw, rfl⟩
  exact hcast.bind hf

theorem settles_reported {met : Bool} {what : String} :
    Settles (if met then Pure.pure () else checkFail what) s [.reported met] () s := by
  cases met with
  | true => exact fun _ hw => ⟨rfl, rfl, hw, rfl⟩
  | false => exact fun _ _ => ⟨rfl, rfl⟩

theorem settles_operator {arity : String → Option Nat} {op what : String} :
    Settles (do
      match ← askArity arity op with
      | none => checkFail what
      | some _ => Pure.pure ()) s [.reported (arity op).isSome] () s := by
  refine settles_askArity ?_
  cases arity op with
  | none => exact fun _ _ => ⟨rfl, rfl⟩
  | some _ => exact fun _ hw => ⟨rfl, rfl, hw, rfl⟩

end

/-- What the induction over the tree says of one expression. -/
def Demands (arity : String → Option Nat) (e : Expr) : Prop :=
  ∀ s, Settles (e.check arity) s (e.demands arity s) () (e.after s)

section

variable {arity : String → Option Nat}

theorem demands_option {o : Option Expr} (ho : ∀ e ∈ o, Demands arity e) (s : Scope) :
    Settles (checkOption arity o) s (demandsOption arity s o) () (afterOption o s) := by
  cases o with
  | none =>
      have hafter : afterOption none s = s := funext fun _ => Bool.or_false _
      rw [checkOption, hafter]
      exact .pure () s
  | some e =>
      have hafter : afterOption (some e) s = e.after s := rfl
      rw [checkOption, hafter]
      exact ho e rfl s

theorem demands_args {es : List Expr} (hes : ∀ e ∈ es, Demands arity e) (s : Scope) :
    Settles (checkArgs arity es) s (demandsArgs arity s es) ()
      (fun x => s x || leaksArgs x es) := by
  induction es generalizing s with
  | nil =>
      have hafter : (fun x => s x || leaksArgs x []) = s := funext fun _ => Bool.or_false _
      rw [checkArgs, hafter]
      exact .pure () s
  | cons e es ih =>
      have hafter : (fun x => s x || leaksArgs x (e :: es)) =
          fun x => e.after s x || leaksArgs x es :=
        funext fun _ => (Bool.or_assoc ..).symm
      rw [checkArgs, hafter]
      exact (hes e (List.mem_cons_self ..) s).bind
        (ih (fun a ha => hes a (List.mem_cons_of_mem _ ha)) _)

/-- What the map of a `var` holds of each name: for those it binds, whether
the name is bound again behind it. -/
def savedVars (vs : List (String × Option Expr)) (s was : Scope) : Scope := fun x =>
  if x ∈ vs.map Prod.fst then s x || leaksSaved x vs else was x

theorem demands_vars {vs : List (String × Option Expr)}
    (hvs : ∀ v ∈ vs, ∀ e ∈ v.2, Demands arity e) (s was : Scope) :
    Settles (checkVars arity was vs) s (demandsVars arity s vs) (savedVars vs s was)
      (afterVars vs s) := by
  induction vs generalizing s was with
  | nil =>
      have hafter : afterVars [] s = s := funext fun x => by simp [afterVars, leaksVars]
      rw [checkVars, hafter]
      exact .pure was s
  | cons v vs ih =>
      obtain ⟨y, init⟩ := v
      have ho := demands_option (hvs _ (List.mem_cons_self ..)) s
      have hafter : afterVars ((y, init) :: vs) s =
          afterVars vs ((afterOption init s).bind y) := by
        funext x
        by_cases heq : x = y
        · simp [afterVars, Scope.bind, heq]
        · simp only [afterVars, afterOption, Scope.bind, leaksVars, heq, if_false, List.map_cons,
            List.mem_cons, false_or, Bool.or_assoc]
      have hsaved : savedVars ((y, init) :: vs) s was =
          savedVars vs ((afterOption init s).bind y)
            (fun x => if x = y then afterOption init s y else was x) := by
        funext x
        simp only [savedVars, afterOption, Scope.bind, leaksSaved, List.map_cons, List.mem_cons]
        by_cases heq : x = y
        · subst heq
          by_cases hx : x ∈ vs.map Prod.fst
          · simp [hx]
          · simp [hx]
        · have hne : (x == y) = false := by simpa using heq
          by_cases hx : x ∈ vs.map Prod.fst
          · simp [hx, heq, hne, Bool.or_assoc]
          · simp [hx, heq]
      rw [checkVars, hafter, hsaved]
      exact ho.bind (settles_bound (settles_bindName
        (ih (fun w hw => hvs w (List.mem_cons_of_mem _ hw)) _ _)))

theorem restoreScope_ok (vs : List (String × Option Expr)) (old : Scope) (w : Walk) :
    restoreScope old vs w =
      .ok () { w with scope := fun x => if x ∈ vs.map Prod.fst then old x else w.scope x } := by
  induction vs generalizing w with
  | nil => rfl
  | cons v vs ih =>
      obtain ⟨y, init⟩ := v
      have hscope : (fun x => if x ∈ ((y, init) :: vs).map Prod.fst then old x else w.scope x) =
          fun x => if x ∈ vs.map Prod.fst then old x else if x = y then old y else w.scope x := by
        funext x
        by_cases hx : x ∈ vs.map Prod.fst
        · simp only [List.map_cons, List.mem_cons, hx, or_true, if_true]
        · by_cases heq : x = y
          · simp only [List.map_cons, List.mem_cons, heq, true_or, if_true, ite_self]
          · simp only [List.map_cons, List.mem_cons, hx, heq, or_self, if_false]
      have hbind : bindName y (old y) w =
          .ok () { w with scope := fun x => if x = y then old y else w.scope x } := rfl
      rw [hscope, restoreScope, bind_ok hbind]
      exact ih _

theorem demands_varIn {varNames : List (String × Option Expr)} {body : Expr}
    (hvs : ∀ v ∈ varNames, ∀ e ∈ v.2, Demands arity e) (hbody : Demands arity body) :
    Demands arity (.varIn varNames body) := by
  intro s
  have hafter : (Expr.varIn varNames body).after s = fun x =>
      if x ∈ varNames.map Prod.fst then savedVars varNames s (fun _ => false) x
      else body.after (afterVars varNames s) x := by
    funext x
    by_cases hx : x ∈ varNames.map Prod.fst
    · simp only [Expr.after, Expr.leaks, savedVars, if_pos hx]
    · simp only [Expr.after, Expr.leaks, afterVars, hx, if_false, decide_false, Bool.or_false,
        Bool.or_assoc]
  rw [Expr.check, hafter]
  refine (demands_vars hvs s fun _ => false).bind ((hbody _).last fun w hw => ?_)
  exact ⟨_, restoreScope_ok .., by rw [← hw], rfl⟩

theorem demands_assign {lhs rhs : Expr} (hr : Demands arity rhs) :
    Demands arity (.binary '=' lhs rhs) := by
  intro s
  simp only [Expr.check, Expr.demands, if_true]
  cases lhs with
  | «variable» name =>
      have hafter : (Expr.binary '=' (.variable name) rhs).after s = rhs.after s := rfl
      rw [hafter]
      exact settles_noteCast ((hr s).bind (.met rfl (by simp) (settles_bound settles_reported)))
  | _ => exact settles_misread rfl (hr s)

theorem demands_binary {op : Char} {lhs rhs : Expr} (hop : op ≠ '=') (hl : Demands arity lhs)
    (hr : Demands arity rhs) : Demands arity (.binary op lhs rhs) := by
  intro s
  have hafter : (Expr.binary op lhs rhs).after s = rhs.after (lhs.after s) :=
    funext fun _ => (Bool.or_assoc ..).symm
  simp only [Expr.check, Expr.demands, if_neg hop, hafter]
  refine (hl s).bind ((hr _).bind ?_)
  by_cases hmem : op ∈ ['+', '-', '*', '<']
  · simp only [if_pos hmem]
    exact .pure () _
  · simp only [if_neg hmem]
    exact settles_operator

theorem demands_forIn {x : String} {start fin body : Expr} {step : Option Expr}
    (hs : Demands arity start) (hf : Demands arity fin) (ho : ∀ e ∈ step, Demands arity e)
    (hb : Demands arity body) : Demands arity (.forIn x start fin step body) := by
  intro s
  have hafter : (Expr.forIn x start fin step body).after s = fun y =>
      if y = x then start.after s x
      else fin.after (afterOption step (body.after ((start.after s).bind x))) y := by
    funext y
    by_cases heq : y = x
    · simp [Expr.after, Expr.leaks, heq]
    · have hne : (y != x) = true := by simpa using heq
      simp only [Expr.after, Expr.leaks, afterOption, Scope.bind, hne, heq, if_false,
        Bool.true_and, Bool.or_assoc]
  rw [Expr.check, hafter]
  refine (hs s).bind (settles_bound (settles_bindName ((hb _).bind
    ((demands_option ho _).bind ?_))))
  refine (hf _).last fun w hw => ⟨_, rfl, ?_, rfl⟩
  show (fun y => if y = x then start.after s x else w.scope y) = _
  rw [hw]
  rfl

theorem demands_call {callee : String} {args : List Expr} (hargs : ∀ e ∈ args, Demands arity e) :
    Demands arity (.call callee args) := by
  intro s
  have hdemands : (Expr.call callee args).demands arity s =
      .reported (decide (arity callee = some args.length)) :: demandsArgs arity s args := rfl
  rw [Expr.check, hdemands]
  refine settles_askArity ?_
  cases ha : arity callee with
  | none => exact fun _ _ => ⟨rfl, rfl⟩
  | some n =>
      by_cases hn : n = args.length
      · simp only [hn, ne_eq, not_true_eq_false, if_false, decide_true]
        exact .met rfl (by simp) (demands_args hargs s)
      · have hd : decide (some n = some args.length) = false := by simpa using hn
        simp only [ne_eq, hn, not_false_eq_true, if_true, hd]
        exact fun _ _ => ⟨rfl, rfl⟩

/-- A check stops at the first demand that is not met. -/
theorem demands (arity : String → Option Nat) : ∀ e, Demands arity e :=
  Expr.Inductive.all {
    number := fun val s => by
      have hafter : (Expr.number val).after s = s := funext fun _ => Bool.or_false _
      rw [Expr.check, Expr.demands, hafter]
      exact .pure () s
    name := fun name s => by
      have hafter : (Expr.variable name).after s = s := funext fun _ => Bool.or_false _
      rw [Expr.check, Expr.demands, hafter]
      exact settles_bound settles_reported
    varIn := fun _ _ => demands_varIn
    unary := fun op operand ho s => by
      rw [Expr.check, Expr.demands]
      exact (ho s).bind settles_operator
    binary := fun op lhs rhs hl hr => by
      by_cases hop : op = '='
      · exact hop ▸ demands_assign hr
      · exact demands_binary hop hl hr
    ifElse := fun cond thn els hc ht he s => by
      have hafter : (Expr.ifElse cond thn els).after s = els.after (thn.after (cond.after s)) := by
        funext x
        simp only [Expr.after, Expr.leaks, Bool.or_assoc]
      rw [Expr.check_ifElse, Expr.demands_ifElse, hafter]
      exact (hc s).bind ((ht _).bind (he _))
    forIn := fun _ _ _ _ _ => demands_forIn
    call := fun _ _ => demands_call }

end

/-! ## Misread assignments -/

/-- A cast that goes wrong is counted exactly if nothing in front of it stops
code generation. -/
theorem miscastsOf_pos_iff {ds : List Demand} : 0 < miscastsOf ds ↔
    ∃ pre post, ds = pre ++ .cast false :: post ∧ ∀ d ∈ pre, d.unmet = false := by
  induction ds with
  | nil => exact ⟨fun h => absurd h (Nat.lt_irrefl 0), fun ⟨pre, post, h, _⟩ => by simp at h⟩
  | cons d ds ih =>
      constructor
      · intro h
        cases hd : d.unmet with
        | true => simp [miscastsOf, hd] at h
        | false =>
            by_cases hcast : d = .cast false
            · exact ⟨[], ds, by rw [hcast]; rfl, List.forall_mem_nil _⟩
            · simp only [miscastsOf, hd, hcast, Bool.false_eq_true, if_false, Nat.zero_add] at h
              obtain ⟨pre, post, rfl, hpre⟩ := ih.mp h
              exact ⟨d :: pre, post, rfl, List.forall_mem_cons.mpr ⟨hd, hpre⟩⟩
      · rintro ⟨pre, post, heq, hpre⟩
        cases pre with
        | nil =>
            obtain ⟨rfl, rfl⟩ := List.cons.inj heq
            simp only [miscastsOf, Demand.unmet, Bool.false_eq_true, if_false, if_true]
            omega
        | cons a pre =>
            obtain ⟨rfl, rfl⟩ := List.cons.inj heq
            obtain ⟨ha, hpre⟩ := List.forall_mem_cons.mp hpre
            have hpos := ih.mpr ⟨pre, post, rfl, hpre⟩
            simp only [miscastsOf, ha, Bool.false_eq_true, if_false]
            omega

/-- Code generation for `e` takes nothing for a variable that is none: however
it ends, no cast on the way went wrong, and no name was read by way of one. -/
structure CastsVariables (A : Arith) (e : Expr) (b : Builder) : Prop where
  returned : ∀ v b', e.codegen A b = .ok v b' → b'.miscasts = b.miscasts
  threw : ∀ x b', e.codegen A b = .error x b' → b'.miscasts = b.miscasts
  used : ∀ b', e.codegen A b ≠ .error .misread b'

/-- The casts code generation makes are those in front of the first demand that
is not met. -/
theorem castsVariables_iff (A : Arith) (e : Expr) (b : Builder) :
    CastsVariables A e b ↔ miscastsOf (e.demands b.arityOf b.scope) = 0 := by
  have hwalked := walked A e b
  have hdemands := demands b.arityOf e b.scope { scope := b.scope } rfl
  generalize hv : e.codegen A b = r at hwalked
  generalize e.check b.arityOf { scope := b.scope } = r' at hwalked hdemands
  cases hwalked with
  | @ok v b' w h =>
      have hcount : b'.miscasts = b.miscasts + miscastsOf (e.demands b.arityOf b.scope) :=
        h.miscasts.trans (by rw [hdemands.2.2.2]; exact congrArg _ (Nat.zero_add _))
      constructor
      · intro hc
        have heq := hc.returned v b' hv
        omega
      · intro hzero
        refine ⟨fun v' b'' h' => ?_, fun x b'' h' => ?_, fun b'' h' => ?_⟩
        · rw [hv] at h'
          cases h'
          omega
        · rw [hv] at h'
          cases h'
        · rw [hv] at h'
          cases h'
  | @error x b' w h =>
      have hcount : b'.miscasts = b.miscasts + miscastsOf (e.demands b.arityOf b.scope) ∧
          (x = .misread → 0 < miscastsOf (e.demands b.arityOf b.scope)) := by
        cases x with
        | misread =>
            refine ⟨h.miscasts.trans ?_, fun _ => hdemands.2.1⟩
            rw [hdemands.2.2]
            exact congrArg _ (Nat.zero_add _)
        | exception what =>
            refine ⟨h.miscasts.trans ?_, nofun⟩
            rw [hdemands.2]
            exact congrArg _ (Nat.zero_add _)
      obtain ⟨hcount, hpos⟩ := hcount
      constructor
      · intro hc
        have heq := hc.threw x b' hv
        omega
      · intro hzero
        refine ⟨fun v' b'' h' => ?_, fun y b'' h' => ?_, fun b'' h' => ?_⟩
        · rw [hv] at h'
          cases h'
        · rw [hv] at h'
          cases h'
          omega
        · rw [hv] at h'
          cases h'
          exact absurd (hpos rfl) (by omega)

/-- Where no cast goes wrong, what stops code generation is reported. -/
theorem reported_of_unmet {arity : String → Option Nat} {e : Expr} {s : Scope} {d : Demand}
    (hzero : miscastsOf (e.demands arity s) = 0)
    (hd : (e.demands arity s).find? Demand.unmet = some d) : d = .reported false := by
  have h := demands arity e s { scope := s } rfl
  cases hr : e.check arity { scope := s } with
  | ok u w =>
      rw [hr] at h
      exact absurd (h.1.symm.trans hd) nofun
  | error x w =>
      rw [hr] at h
      cases x with
      | misread => exact absurd h.2.1 (by omega)
      | exception what => exact Option.some.inj (hd.symm.trans h.1)

/-- Code generation never takes anything else for a variable exactly where
each assignment to something else has a demand in front of it that an
exception reports. -/
theorem codegen_misread_iff (A : Arith) (e : Expr) (b : Builder) :
    CastsVariables A e b ↔
      ∀ pre post, e.demands b.arityOf b.scope = pre ++ .cast false :: post →
        .reported false ∈ pre := by
  rw [castsVariables_iff]
  constructor
  · intro hzero pre post hds
    cases hfind : pre.find? Demand.unmet with
    | none =>
        have hpre : ∀ d ∈ pre, d.unmet = false := fun d hd =>
          (Bool.not_eq_true _).mp (List.find?_eq_none.mp hfind d hd)
        exact absurd (miscastsOf_pos_iff.mpr ⟨pre, post, hds, hpre⟩) (by omega)
    | some d =>
        have hd := reported_of_unmet (d := d) hzero (by rw [hds, List.find?_append, hfind]; rfl)
        exact hd ▸ List.mem_of_find?_eq_some hfind
  · intro h
    by_contra hne
    obtain ⟨pre, post, hds, hpre⟩ := miscastsOf_pos_iff.mp (Nat.pos_of_ne_zero hne)
    exact absurd (hpre _ (h pre post hds)) nofun

/-- `var a, b, c in a = b = c`. -/
def assignTwiceInput : List UInt8 :=
  [118, 97, 114, 32, 97, 44, 32, 98, 44, 32, 99, 32, 105, 110, 32, 97, 32, 61, 32, 98, 32, 61,
   32, 99]

theorem tokens_assignTwiceInput : (Lexer.init assignTwiceInput).tokens (fun _ => .zero) =
    [⟨.var, "var", .zero⟩, ⟨.identifier, "a", .zero⟩, ⟨.chr ',', "a", .zero⟩,
      ⟨.identifier, "b", .zero⟩, ⟨.chr ',', "b", .zero⟩, ⟨.identifier, "c", .zero⟩,
      ⟨.in_, "in", .zero⟩, ⟨.identifier, "a", .zero⟩, ⟨.chr '=', "a", .zero⟩,
      ⟨.identifier, "b", .zero⟩, ⟨.chr '=', "b", .zero⟩, ⟨.identifier, "c", .zero⟩] := by
  decide +kernel

/-- The parser puts other things than variables to the left of `=`: in
`a = b = c` it is `a = b`, and its name is read. -/
theorem codegen_misreads : ¬ ∀ (strtod : String → Double) (input : List UInt8)
    (prec : Char → Int) (f : FunctionAST) (left : List Lexeme) (A : Arith) (b : Builder),
    parseTopLevelExpr prec ((Lexer.init input).tokens strtod) = .ok f left →
      CastsVariables A f.body b := by
  intro h
  have hparse : parseTopLevelExpr initialPrecedence
      ((Lexer.init assignTwiceInput).tokens fun _ => .zero) =
      .ok ⟨{ name := "__anon_expr", args := [] },
        .varIn [("a", none), ("b", none), ("c", none)]
          (.binary '=' (.binary '=' (.variable "a") (.variable "b")) (.variable "c"))⟩ [] := by
    rw [tokens_assignTwiceInput]
    rfl
  exact (h _ _ _ _ _ ⟨fun a _ => a, fun a _ => a, fun a _ => a⟩ (.initial initialPrecedence)
    hparse).used _ rfl

end LlvmPasses.Kaleido
