import TensorTyping.Proofs.Inference.Failure
import TensorTyping.Proofs.Module.Extension

/-!
# Modules that are worked on together

In a workspace there are any number of modules. Constructors are made for data types, data types
are defined by constructors and added to modules, definitions are copied from module to module, and
modules are checked. Each of these may fail, and what was done up to then stays done.

Whatever has been done, the tables of every module tell the same story. The table of names holds
exactly the functions and data types that are defined, under their names. A constructor is looked up
to the data type that is registered with it. Only functions that are defined have a recorded
signature. It matters that a data type is added only if its name is new to the module: constructors
belong to one data type, so no entry of the table of constructors is ever overwritten.
-/
namespace TensorTyping

open List

namespace Table

variable {κ α : Type} [DecidableEq κ]

theorem contains_merge (t u : Table κ α) (k : κ) :
    (t.merge u).contains k = true ↔ t.contains k = true ∨ u.contains k = true := by
  have hfold : ∀ (es : List (κ × α)) (t : Table κ α),
      (es.foldl (fun t e => t.insert e.1 e.2) t).contains k = true ↔
        t.contains k = true ∨ k ∈ es.map Prod.fst := by
    intro es
    induction es with
    | nil => simp
    | cons e es ih =>
      intro t
      rw [foldl_cons, ih, contains_insert, Bool.or_eq_true, decide_eq_true_eq, map_cons,
        mem_cons]
      tauto
  rw [contains_iff_mem_keys (t := u)]
  exact hfold u.entries t

/-- One table holds what the other defines under its name, and nothing else. -/
def Names (name : κ → String) (names : Table String κ) (definitions : Table κ α) : Prop :=
  ∀ n k, names.get? n = some k ↔ definitions.contains k = true ∧ name k = n

variable {name : κ → String} {names : Table String κ} {definitions : Table κ α} {k : κ}

theorem Names.contains_name (h : Names name names definitions)
    (hk : definitions.contains k = true) : names.contains (name k) = true := by
  rw [contains, (h _ k).2 ⟨hk, rfl⟩]
  rfl

theorem Names.insert (h : Names name names definitions) (hk : ¬ names.contains (name k) = true)
    (a : α) : Names name (names.insert (name k) k) (definitions.insert k a) := by
  intro n j
  rw [get?_insert, contains_insert, Bool.or_eq_true, decide_eq_true_eq]
  by_cases hn : n = name k
  · rw [if_pos hn, Option.some.injEq]
    constructor
    · rintro rfl
      exact ⟨.inl rfl, hn.symm⟩
    · rintro ⟨rfl | hj, hname⟩
      · rfl
      · exact absurd (h.contains_name hj) (by rwa [hname, hn])
  · rw [if_neg hn, h n j]
    constructor
    · rintro ⟨hj, hname⟩
      exact ⟨.inr hj, hname⟩
    · rintro ⟨rfl | hj, hname⟩
      · exact absurd hname.symm hn
      · exact ⟨hj, hname⟩

end Table

namespace Module

variable {known : DataType → Prop} {m m' other : Module}

/-- The tables of a module, which defines only data types that are known, agree with each other. -/
structure Tidy (known : DataType → Prop) (m : Module) : Prop where
  globals : Table.Names (fun g : Global => g.name) m.globals m.functions
  handles : Table.Names (fun h : Handle => h.name) m.handles m.dataTypes
  defined : ∀ x ∈ m.dataTypes.entries, x.2.handle = x.1 ∧ known x.2
  ctors : ∀ n d, m.ctors.get? n = some d ↔
    ∃ h, m.dataTypes.get? h = some d ∧ ∃ c ∈ d.ctors, c.serial = n
  checked : ∀ g, m.checked.contains g = true → m.functions.contains g = true

theorem tidy_empty (known : DataType → Prop) : Tidy known .empty where
  globals _ _ := by simp [empty, Table.get?, Table.contains]
  handles _ _ := by simp [empty, Table.get?, Table.contains]
  defined := forall_mem_nil _
  ctors _ _ := by simp [empty, Table.get?]
  checked _ h := by simp [empty, Table.get?, Table.contains] at h

theorem Tidy.mono {known' : DataType → Prop} (h : Tidy known m) (hknown : ∀ d, known d → known' d) :
    Tidy known' m :=
  { h with defined := fun x hx => (h.defined x hx).imp_right (hknown x.2) }

theorem Tidy.addFunction (h : Tidy known m) {g : Global} {e : Expr}
    (hrun : m.addFunction g e = .ok m') : Tidy known m' := by
  unfold Module.addFunction at hrun
  split at hrun
  · cases hrun
  next hname =>
  split at hrun
  · cases hrun
  next f hf =>
  cases hrun
  refine { h with globals := h.globals.insert hname f, checked := fun k hk => ?_ }
  rw [Table.contains_insert, h.checked k hk, Bool.or_true]

/-- What adding keeps is kept by adding one thing after the other, also if that stops. -/
theorem addAll_keeps {α : Type} (add : Module → α → Except Fault Module) {P : Module → Prop}
    (as : List α) (hadd : ∀ a ∈ as, ∀ m m', P m → add m a = .ok m' → P m') (h : P m) :
    P (addAll add m as).1 := by
  induction as generalizing m with
  | nil => exact h
  | cons a as ih =>
    rw [forall_mem_cons] at hadd
    unfold addAll
    split
    · next hrun => exact ih hadd.2 (hadd.1 _ _ h hrun)
    · exact h

theorem contains_addFunction {g k : Global} {e : Expr} (h : m.addFunction g e = .ok m') :
    m'.functions.contains k = (decide (k = g) || m.functions.contains k) := by
  unfold Module.addFunction at h
  split at h
  · cases h
  split at h
  · cases h
  · cases h
    exact Table.contains_insert _ _ _ _

theorem contains_of_addAll {es : List (Global × Function)}
    (h : addAll (fun m x => m.addFunction x.1 x.2.toExpr) m es = (m', none)) :
    ∀ x ∈ es, m'.functions.contains x.1 = true := by
  induction es generalizing m with
  | nil => exact forall_mem_nil _
  | cons x es ih =>
    unfold addAll at h
    split at h
    · next m₁ hrun =>
      refine forall_mem_cons.2 ⟨?_, ih h⟩
      have hfirst : m₁.functions.contains x.1 = true := by
        rw [contains_addFunction hrun]
        simp
      have hkeeps := addAll_keeps (fun m x => m.addFunction x.1 x.2.toExpr) es
        (P := fun m => m.functions.contains x.1 = true) (fun y _ m m' hm hy => by
          rw [contains_addFunction hy, hm, Bool.or_true]) hfirst
      rwa [h] at hkeeps
    · cases h

section

variable (hshare : ∀ d d', known d → known d' → ∀ c ∈ d.ctors, ∀ c' ∈ d'.ctors,
  c.serial = c'.serial → d.handle = d'.handle)

include hshare

/-- A data type whose name is new brings only constructors that are new. -/
theorem Tidy.addData (h : Tidy known m) {d : DataType} (hd : known d)
    (hrun : m.addData d = .ok m') : Tidy known m' := by
  unfold Module.addData at hrun
  split at hrun
  · cases hrun
  next hname =>
  cases hrun
  have hnew : d.handle ∉ m.dataTypes.keys := fun hk =>
    hname (h.handles.contains_name (Table.contains_iff_mem_keys.2 hk))
  refine { h with handles := h.handles.insert hname d, defined := fun x hx => ?_, ctors := ?_ }
  · rw [Table.entries_insert hnew, mem_append, mem_singleton] at hx
    rcases hx with hx | rfl
    · exact h.defined x hx
    · exact ⟨rfl, hd⟩
  · intro n e
    rw [get?_foldl_insert]
    simp only [Table.get?_insert]
    constructor
    · intro hn
      split at hn
      · next hmem =>
        cases hn
        obtain ⟨c, hc, hserial⟩ := mem_map.1 hmem
        exact ⟨d.handle, if_pos rfl, c, hc, hserial⟩
      · obtain ⟨k, hk, hc⟩ := (h.ctors n e).1 hn
        refine ⟨k, ?_, hc⟩
        rwa [if_neg]
        rintro rfl
        exact hnew (mem_map_of_mem (Table.mem_entries_of_get? hk))
    · rintro ⟨k, hk, c, hc, rfl⟩
      split at hk
      · cases hk
        exact if_pos (mem_map_of_mem hc)
      · next hne =>
        rw [if_neg, h.ctors]
        · exact ⟨k, hk, c, hc, rfl⟩
        · -- A constructor of both would belong to both data types.
          intro hmem
          obtain ⟨c', hc', hserial⟩ := mem_map.1 hmem
          obtain ⟨hhandle, hknown⟩ := h.defined _ (Table.mem_entries_of_get? hk)
          exact hne (hhandle.symm.trans (hshare _ _ hd hknown c' hc' c hc hserial).symm)

theorem Tidy.update (h : Tidy known m) (hother : Tidy known other) :
    Tidy known (m.update other).1 := by
  have hdata : Tidy known (addAll Module.addData m other.dataTypes.values).1 := by
    refine addAll_keeps _ _ (fun d hd m m' hm hrun => hm.addData hshare ?_ hrun) h
    obtain ⟨x, hx, rfl⟩ := mem_map.1 hd
    exact (hother.defined x hx).2
  unfold Module.update
  split
  · next hrun => rwa [hrun] at hdata
  · next m₁ hrun =>
    rw [hrun] at hdata
    have hfunctions := addAll_keeps (fun m x => m.addFunction x.1 x.2.toExpr)
      other.functions.entries (fun x _ m m' (hm : Tidy known m) hrun => hm.addFunction hrun) hdata
    split
    · next hrun' => rwa [hrun'] at hfunctions
    · next m₂ hrun' =>
      rw [hrun'] at hfunctions
      refine { hfunctions with checked := fun g hg => ?_ }
      rcases (Table.contains_merge _ _ g).1 hg with hg | hg
      · exact hfunctions.checked g hg
      · obtain ⟨x, hx, rfl⟩ :=
          mem_map.1 (Table.contains_iff_mem_keys.1 (hother.checked g hg))
        exact contains_of_addAll hrun' x hx

end

theorem Tidy.check (h : Tidy known m) (operators : Operators) (registry : Registry)
    (report : Report) (session : Session) :
    Tidy known (m.check operators registry report session).module := by
  unfold Module.check
  dsimp only
  split
  · next m' s hrun =>
    obtain ⟨hmodule, hchecked⟩ := Inference.checkModule_module hrun
    dsimp only at hmodule hchecked ⊢
    rw [hmodule]
    refine { h with checked := fun g hg => ?_ }
    rcases hchecked g hg with hg | hg
    · exact h.checked g hg
    · exact Table.contains_iff_mem_keys.2 hg
  · exact h
  · exact h

end Module

theorem Session.grows_check (session : Session) (m : Module) (operators : Operators)
    (registry : Registry) (report : Report) :
    session.Grows (m.check operators registry report session).session := by
  have hstart : session.Grows (Inference.start session).session := ⟨rfl, Nat.le_succ _⟩
  have htags := (Inference.checkModule_marksLast
    ⟨m, operators, registry, m.groups, report.verbose⟩).tags (Inference.start session)
  refine hstart.trans ?_
  unfold endState at htags
  unfold Module.check
  dsimp only
  split
  · next hrun => rwa [hrun] at htags
  · next hrun => rwa [hrun] at htags
  · next hrun => rwa [hrun] at htags

/-- Constructors for the data type of a handle, which take the serial numbers after `last`. -/
def newCtors (handle : Handle) : Serial → List (String × List Ty) → List Ctor
  | _, [] => []
  | last, (name, inputs) :: cases =>
    ⟨⟨last + 1, name⟩, inputs, handle⟩ :: newCtors handle (last + 1) cases

theorem serials_newCtors (handle : Handle) (last : Serial) (cases : List (String × List Ty)) :
    (newCtors handle last cases).map (fun c => c.serial) =
      List.range' (last + 1) cases.length := by
  induction cases generalizing last with
  | nil => rfl
  | cons x cases ih => rw [newCtors, map_cons, ih, length_cons, range'_succ]

theorem owner_of_mem_newCtors {handle : Handle} {last : Serial} {cases : List (String × List Ty)}
    {c : Ctor} (hc : c ∈ newCtors handle last cases) : c.owner = handle := by
  induction cases generalizing last with
  | nil => cases hc
  | cons x cases ih =>
    rcases mem_cons.1 hc with rfl | hc
    · rfl
    · exact ih hc

theorem mapM_mint {handle : Handle} {make : String × List Ty → SessionM Ctor}
    (hmake : ∀ x s, make x s = .ok ⟨⟨s.supply.last + 1, x.1⟩, x.2, handle⟩
      { s with supply := ⟨s.supply.last + 1⟩ })
    (cases : List (String × List Ty)) (s : Session) :
    cases.mapM make s = .ok (newCtors handle s.supply.last cases)
      { s with supply := ⟨s.supply.last + cases.length⟩ } := by
  induction cases generalizing s with
  | nil => rfl
  | cons x cases ih =>
    rw [mapM_cons, bind_of_ok (hmake x s), bind_of_ok (ih _)]
    simp only [newCtors, length_cons, Nat.add_assoc, Nat.add_comm 1]
    rfl

namespace DataType

/-- The constructors that are tagged when a data type is defined: those before the first that
belongs to another one. -/
def tagged (d : DataType) : List Ctor := d.ctors.takeWhile fun c => decide (c.owner = d.handle)

/-- The tags that are given when a data type is defined, the last one first. -/
def places (d : DataType) : List (Serial × Nat) := (d.tagged.map fun c => c.serial).zipIdx.reverse

theorem endState_define (h : Handle) (ps : List TypeParam) (cs : List Ctor) (s : Session) :
    endState (define h ps cs) s =
      { s with marks := { s.marks with tags := places ⟨h, ps, cs⟩ ++ s.marks.tags } } := by
  have htag : ∀ (cs : List Ctor) (n : Nat) (s : Session), endState (tagAll h n cs) s =
      { s with marks := { s.marks with
        tags := (((cs.takeWhile fun c => decide (c.owner = h)).map fun c => c.serial).zipIdx
          n).reverse ++ s.marks.tags } } := by
    intro cs
    induction cs with
    | nil => exact fun _ _ => rfl
    | cons c cs ih =>
      intro n s
      unfold tagAll
      by_cases hc : c.owner = h
      · rw [if_pos hc, takeWhile_cons_of_pos (by simpa using hc), map_cons,
          zipIdx_cons, reverse_cons, append_assoc]
        exact ih (n + 1) { s with marks := s.marks.setTag c.serial n }
      · rw [if_neg hc, takeWhile_cons_of_neg (by simpa using hc)]
        rfl
  rw [define, endState_bind_pure]
  exact htag cs 0 s

theorem define_ok {h : Handle} {cs : List Ctor} (hcs : ∀ c ∈ cs, c.owner = h)
    (ps : List TypeParam) (s : Session) :
    define h ps cs s = .ok ⟨h, ps, cs⟩ (endState (define h ps cs) s) := by
  have htag : ∀ n s, ∃ s', tagAll h n cs s = .ok () s' := by
    induction cs with
    | nil => exact fun n s => ⟨s, rfl⟩
    | cons c cs ih =>
      rw [forall_mem_cons] at hcs
      intro n s
      unfold tagAll
      rw [if_pos hcs.1]
      exact ih hcs.2 _ _
  obtain ⟨s', hs'⟩ := htag 0 s
  have hrun : define h ps cs s = .ok ⟨h, ps, cs⟩ s' := bind_of_ok hs'
  rw [endState_of_ok hrun, hrun]

end DataType

/-- The modules of one session, by number. -/
structure Workspace where
  session : Session := {}
  modules : Nat → Module := fun _ => .empty
  /-- The constructors that have been made. -/
  made : List Ctor := []
  /-- The data types whose definition has been tried, with success or not, the last one first. -/
  tried : List DataType := []

inductive Action where
  /-- Give serial numbers to things of other sorts. -/
  | mint (count : Nat)
  /-- Make constructors for a data type. -/
  | make (handle : Handle) (cases : List (String × List Ty))
  /-- Define a data type by its constructors. -/
  | define (handle : Handle) (params : List TypeParam) (ctors : List Ctor)
  /-- Add a data type to a module. -/
  | addData (k : Nat) (d : DataType)
  /-- Make constructors, define a data type by them and add it to a module. -/
  | defineData (k : Nat) (handle : Handle) (params : List TypeParam)
      (cases : List (String × List Ty))
  /-- Add a function to a module, under a handle made before or just now. -/
  | addFunction (k : Nat) (g : Global) (e : Expr)
  /-- Bring the definitions of the module `j` into the module `k`. -/
  | update (k j : Nat)
  /-- Check a module. -/
  | check (k : Nat) (operators : Operators) (registry : Registry) (report : Report)

namespace Workspace

def put (w : Workspace) (k : Nat) (m : Module) : Workspace :=
  { w with modules := fun j => if j = k then m else w.modules j }

def replace (w : Workspace) (k : Nat) (m : Except Fault Module) : Workspace :=
  w.put k (m.toOption.getD (w.modules k))

/-- The numbers up to this one are used up. -/
def mintTo (w : Workspace) (last : Serial) : Workspace :=
  { w with session := { w.session with supply := ⟨last⟩ } }

def perform (w : Workspace) : Action → Workspace
  | .mint count => w.mintTo (w.session.supply.last + count)
  | .make handle cases =>
    { w.mintTo (w.session.supply.last + cases.length) with
      made := newCtors handle w.session.supply.last cases ++ w.made }
  | .define handle params ctors =>
    { w with
      session := endState (DataType.define handle params ctors) w.session
      tried := ⟨handle, params, ctors⟩ :: w.tried }
  | .addData k d => w.replace k ((w.modules k).addData d)
  | .defineData k handle params cases =>
    let ctors := newCtors handle w.session.supply.last cases
    let act := (w.modules k).defineData handle params cases
    let w' := { w with
      session := endState act w.session
      made := ctors ++ w.made
      tried := ⟨handle, params, ctors⟩ :: w.tried }
    match act w.session with
    | .ok (_, m) _ => w'.put k m
    | .error _ _ => w'
  | .addFunction k g e => w.replace k ((w.modules k).addFunction g e)
  | .update k j => w.put k ((w.modules k).update (w.modules j)).1
  | .check k operators registry report =>
    let checked := (w.modules k).check operators registry report w.session
    { w.put k checked.module with session := checked.session }

/-- A data type exists if its definition was tried and accepted: all constructors belong to it. -/
def Known (w : Workspace) (d : DataType) : Prop :=
  d ∈ w.tried ∧ ∀ c ∈ d.ctors, c.owner = d.handle

/-- Constructors have to be made before a data type can be defined by them, and a data type has to
be defined before it can be added to a module. -/
def Offers (w : Workspace) : Action → Prop
  | .define _ _ ctors => ∀ c ∈ ctors, c ∈ w.made
  | .addData _ d => w.Known d
  | _ => True

/-- Some sequence of actions leads from empty modules to this workspace. -/
inductive Reached : Workspace → Prop
  | start (supply : Supply) : Reached { session := { supply } }
  | act {w : Workspace} {a : Action} : Reached w → w.Offers a → Reached (w.perform a)

variable {w : Workspace}

/-- What holds in every workspace that can be reached. -/
structure Sound (w : Workspace) : Prop where
  made_le : ∀ c ∈ w.made, c.serial ≤ w.session.supply.last
  made_eq : ∀ c ∈ w.made, ∀ c' ∈ w.made, c.serial = c'.serial → c = c'
  tried : ∀ d ∈ w.tried, ∀ c ∈ d.ctors, c ∈ w.made
  tidy : ∀ k, (w.modules k).Tidy w.Known

/-- Data types that have a constructor in common have the same handle. -/
theorem Sound.handle_eq (h : w.Sound) (d d' : DataType) (hd : w.Known d) (hd' : w.Known d') :
    ∀ c ∈ d.ctors, ∀ c' ∈ d'.ctors, c.serial = c'.serial → d.handle = d'.handle := by
  intro c hc c' hc' heq
  obtain rfl := h.made_eq c (h.tried d hd.1 c hc) c' (h.tried d' hd'.1 c' hc') heq
  exact (hd.2 c hc).symm.trans (hd'.2 c hc')

theorem Sound.put (h : w.Sound) {k : Nat} {m : Module} (hm : m.Tidy w.Known) :
    (w.put k m).Sound := by
  refine { h with tidy := fun j => ?_ }
  simp only [Workspace.put]
  split
  · exact hm
  · exact h.tidy j

theorem Sound.replace (h : w.Sound) {k : Nat} {m : Except Fault Module}
    (hm : ∀ m', m = .ok m' → m'.Tidy w.Known) : (w.replace k m).Sound := by
  refine h.put ?_
  cases m with
  | error => exact h.tidy k
  | ok m' => exact hm m' rfl

theorem Sound.session (h : w.Sound) {session : Session}
    (hle : w.session.supply.last ≤ session.supply.last) : ({ w with session } : Workspace).Sound :=
  { h with made_le := fun c hc => (h.made_le c hc).trans hle }

theorem Sound.make (h : w.Sound) (handle : Handle) (cases : List (String × List Ty)) :
    (w.perform (.make handle cases)).Sound := by
  have hserial : ∀ c ∈ newCtors handle w.session.supply.last cases,
      w.session.supply.last < c.serial ∧
        c.serial ≤ w.session.supply.last + cases.length := by
    intro c hc
    have hmem : c.serial ∈ (newCtors handle w.session.supply.last cases).map fun c => c.serial :=
      mem_map_of_mem hc
    rw [serials_newCtors, mem_range'_1, Nat.add_right_comm] at hmem
    exact hmem.imp_right Nat.le_of_lt_succ
  have hnodup : ((newCtors handle w.session.supply.last cases).map fun c => c.serial).Nodup := by
    rw [serials_newCtors]
    exact nodup_range'
  refine { h with made_le := fun c hc => ?_, made_eq := fun c hc c' hc' heq => ?_, tried := ?_ }
  · rcases mem_append.1 hc with hc | hc
    · exact (hserial c hc).2
    · exact (h.made_le c hc).trans (Nat.le_add_right _ _)
  · rcases mem_append.1 hc with hc | hc <;> rcases mem_append.1 hc' with hc' | hc'
    · exact inj_on_of_nodup_map hnodup hc hc' heq
    · exact absurd (hserial c hc).1 (by rw [heq]; exact Nat.not_lt.2 (h.made_le c' hc'))
    · exact absurd (hserial c' hc').1 (by rw [← heq]; exact Nat.not_lt.2 (h.made_le c hc))
    · exact h.made_eq c hc c' hc' heq
  · exact fun d hd c hc => mem_append_right _ (h.tried d hd c hc)

/-- To define a data type in a module is to make its constructors, to define it by them and to add
it. -/
theorem perform_defineData (w : Workspace) (k : Nat) (handle : Handle) (params : List TypeParam)
    (cases : List (String × List Ty)) :
    w.perform (.defineData k handle params cases) =
      ((w.perform (.make handle cases)).perform
        (.define handle params (newCtors handle w.session.supply.last cases))).perform
        (.addData k ⟨handle, params, newCtors handle w.session.supply.last cases⟩) := by
  have hdefine := DataType.define_ok (fun c => @owner_of_mem_newCtors handle
    w.session.supply.last cases c) params
    { w.session with supply := ⟨w.session.supply.last + cases.length⟩ }
  simp only [perform, replace, put, mintTo]
  generalize hctors : newCtors handle w.session.supply.last cases = ctors at hdefine ⊢
  have hrun : (w.modules k).defineData handle params cases w.session =
      (do return (⟨handle, params, ctors⟩,
        ← SessionM.ofExcept ((w.modules k).addData ⟨handle, params, ctors⟩)) :
          SessionM (DataType × Module))
        (endState (DataType.define handle params ctors)
          { w.session with supply := ⟨w.session.supply.last + cases.length⟩ }) := by
    rw [← hctors] at hdefine ⊢
    unfold Module.defineData
    refine (bind_of_ok (mapM_mint ?_ cases w.session)).trans (bind_of_ok hdefine)
    exact fun _ _ => rfl
  cases hadd : (w.modules k).addData ⟨handle, params, ctors⟩ with
  | ok m =>
    rw [hadd] at hrun
    have hok := hrun.trans (bind_of_ok rfl)
    rw [endState_of_ok hok, hok]
    rfl
  | error f =>
    rw [hadd] at hrun
    have herror := hrun.trans (bind_of_error rfl)
    rw [endState_of_error herror, herror]
    have hsame : w.modules = fun j => if j = k then w.modules k else w.modules j := by
      funext j
      split
      · next heq => rw [heq]
      · rfl
    exact congrArg (fun modules => Workspace.mk _ modules _ _) hsame

theorem Sound.perform (h : w.Sound) {a : Action} (ha : w.Offers a) : (w.perform a).Sound := by
  have haddData {w : Workspace} (h : w.Sound) (k : Nat) {d : DataType} (hd : w.Known d) :
      (w.perform (.addData k d)).Sound :=
    h.replace fun m' hm' => (h.tidy k).addData h.handle_eq hd hm'
  have hdefine {w : Workspace} (h : w.Sound) (handle : Handle) (params : List TypeParam)
      {ctors : List Ctor} (hctors : ∀ c ∈ ctors, c ∈ w.made) :
      (w.perform (.define handle params ctors)).Sound :=
    { h.session (Nat.le_of_eq (by rw [Workspace.perform, DataType.endState_define])) with
      tried := forall_mem_cons.2 ⟨hctors, h.tried⟩
      tidy := fun k => (h.tidy k).mono fun _ => And.imp_left (mem_cons_of_mem _) }
  cases a with
  | mint count => exact h.session (Nat.le_add_right _ _)
  | make handle cases => exact h.make handle cases
  | define handle params ctors => exact hdefine h handle params ha
  | addData k d => exact haddData h k ha
  | defineData k handle params cases =>
    rw [perform_defineData]
    refine haddData (hdefine (h.make handle cases) handle params fun c hc => ?_) k
      ⟨.head _, fun c => owner_of_mem_newCtors⟩
    exact mem_append_left _ hc
  | addFunction k g e => exact h.replace fun m' hm' => (h.tidy k).addFunction hm'
  | update k j => exact h.put ((h.tidy k).update h.handle_eq (h.tidy j))
  | check k operators registry report =>
    exact (h.put ((h.tidy k).check operators registry report w.session)).session
      (w.session.grows_check _ _ _ _).supply_le

theorem Reached.sound (h : w.Reached) : w.Sound := by
  induction h with
  | start supply =>
    exact ⟨forall_mem_nil _, forall_mem_nil _, forall_mem_nil _,
      fun _ => Module.tidy_empty _⟩
  | act _ ha ih => exact ih.perform ha

/-- The tables of every module stay consistent, whatever is done in a workspace and wherever it
fails. A name stands for a handle exactly if a function, or a data type, is defined under this
handle and the handle bears the name. A constructor is looked up to a data type exactly if that is
registered in the module and has the constructor, and then the constructor belongs to it. Only
functions that are defined have a recorded signature. -/
theorem Reached.tables_consistent (h : w.Reached) (k : Nat) :
    (∀ n g, (w.modules k).globals.get? n = some g ↔
        (w.modules k).functions.contains g = true ∧ g.name = n) ∧
      (∀ n a, (w.modules k).handles.get? n = some a ↔
        (w.modules k).dataTypes.contains a = true ∧ a.name = n) ∧
      (∀ c ∈ w.made, ∀ d, ((w.modules k).dataTypeOf? c = some d ↔
          (∃ a, (w.modules k).dataTypes.get? a = some d) ∧ c ∈ d.ctors) ∧
        ((w.modules k).dataTypeOf? c = some d → d.handle = c.owner)) ∧
      ∀ g, (w.modules k).checked.contains g = true →
        (w.modules k).functions.contains g = true := by
  have hs := h.sound
  have htidy := hs.tidy k
  refine ⟨htidy.globals, htidy.handles, fun c hc d => ?_, htidy.checked⟩
  have hlookup : (w.modules k).dataTypeOf? c = some d ↔
      (∃ a, (w.modules k).dataTypes.get? a = some d) ∧ c ∈ d.ctors := by
    rw [Module.dataTypeOf?, htidy.ctors]
    constructor
    · rintro ⟨a, ha, c', hc', hserial⟩
      obtain ⟨-, htried, -⟩ := htidy.defined _ (Table.mem_entries_of_get? ha)
      obtain rfl := hs.made_eq c' (hs.tried d htried c' hc') c hc hserial
      exact ⟨⟨a, ha⟩, hc'⟩
    · rintro ⟨⟨a, ha⟩, hmem⟩
      exact ⟨a, ha, c, hmem, rfl⟩
  refine ⟨hlookup, fun hd => ?_⟩
  obtain ⟨⟨a, ha⟩, hmem⟩ := hlookup.1 hd
  obtain ⟨-, -, howner⟩ := htidy.defined _ (Table.mem_entries_of_get? ha)
  exact (howner c hmem).symm

/-- Another module defines `U` and a `T` of its own. Its `U` is taken over before the names
collide. -/
theorem tables_consistent_collision :
    let t : Handle := ⟨⟨1, "T"⟩⟩
    let u : Handle := ⟨⟨2, "U"⟩⟩
    let t' : Handle := ⟨⟨3, "T"⟩⟩
    let w := ((((({} : Workspace).perform (.mint 3)).perform
      (.defineData 0 t [] [("A", [])])).perform (.defineData 1 u [] [("B", [])])).perform
      (.defineData 1 t' [] [("C", [])])).perform (.update 0 1)
    w.Reached ∧ (w.modules 0).dataTypes.contains u = true ∧
      (w.modules 1).dataTypes.contains t' = true ∧
      ¬ (w.modules 0).dataTypes.contains t' = true := by
  intro t u t' w
  have hw : w.Reached :=
    .act (.act (.act (.act (.act (.start {}) trivial) trivial) trivial) trivial) trivial
  refine ⟨hw, (((hw.tables_consistent 0).2.1 "U" u).1 rfl).1, rfl, fun hdefined => ?_⟩
  have hname := ((hw.tables_consistent 0).2.1 "T" t').2 ⟨hdefined, rfl⟩
  have hother : (w.modules 0).handles.get? "T" = some t := rfl
  rw [hother] at hname
  exact absurd hname (by decide)

end Workspace

end TensorTyping
