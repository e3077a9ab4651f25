import DnsRelay.ConfigRegistry
import DnsRelay.ConfigRuns
set_option autoImplicit false

/-!
Runs of the configuration with its registrations. A key that was registered is
never read again in a run that keeps its meaning, so no parser is ever found.
-/

namespace DnsRelay

open Lib Lib.Exec ConfigRegistry

structure Configs (C V : Type) where
  center : ConfigCenter V
  parsers : HashMap Nat (ConfigParser V)
  cleaners : HashMap Nat C
  buffers : Buffers
  fresh : Nat

namespace Configs
variable {C V : Type}

inductive Call (C V : Type) where
  | registerParser (section_ : Bytes) (parser : ConfigParser V)
  | registerCleaner (section_ : Bytes) (cleaner : C)
  | config (op : ConfigCenter.Op V)

def configInit : Configs C V :=
  ⟨ConfigCenter.init,HashMap.create,HashMap.create,fun _ => none,0⟩

/-- A return ends the life of the buffer at the newest address. -/
def returned (st : Configs C V) : Configs C V :=
  { st with
    buffers := fun a => if a = st.fresh then none else st.buffers a
    fresh := st.fresh+1 }

def configRegisterParser (st : Configs C V) (section_ : Bytes) (parser : ConfigParser V) :
    Exec (Configs C V) := do
  let parsers ← register st.buffers st.fresh st.parsers section_ parser
  .ok { st with parsers := parsers }.returned

def configRegisterCleaner (st : Configs C V) (section_ : Bytes) (cleaner : C) :
    Exec (Configs C V) := do
  let cleaners ← register st.buffers st.fresh st.cleaners section_ cleaner
  .ok { st with cleaners := cleaners }.returned

def call (st : Configs C V) : Call C V → Exec (Option (Got V) × Configs C V)
  | .registerParser s parser => do
      let st ← st.configRegisterParser s parser
      .ok (none,st)
  | .registerCleaner s cleaner => do
      let st ← st.configRegisterCleaner s cleaner
      .ok (none,st)
  | .config (.inject s k raw) => do
      let w ← st.center.configInject (ConfigRegistry.get st.buffers st.cleaners) s k raw
      .ok (none,{ st with center := w.center })
  | .config (.set s k value) => do
      let w ← st.center.configSet (ConfigRegistry.get st.buffers st.cleaners) s k value
      .ok (none,{ st with center := w.center })
  | .config (.get s k value) => do
      let got ← st.center.configGet (ConfigRegistry.get st.buffers st.parsers) s k value
      .ok (some got,{ st with center := got.center })

def after : List (Call C V) → Exec (Configs C V)
  | [] => .ok configInit
  | c :: older => do
      let st ← after older
      let (_,st) ← st.call c
      .ok st

def lastParser (s : Bytes) : List (Call C V) → Option (ConfigParser V)
  | [] => none
  | .registerParser s' parser :: older => if s' = s then some parser else lastParser s older
  | .registerCleaner _ _ :: older => lastParser s older
  | .config _ :: older => lastParser s older

/-- A get of a raw value runs the parser last registered for its section, with the string, or gives
the string when there is none. -/
def RunsOwn (older : List (Call C V)) (st : Configs C V) (got : Option (Got V)) : Call C V → Prop
  | .config (.get s k (some _)) => ∀ raw, st.center.lookup s k = some ⟨false,.string raw⟩ →
      ∃ g, got = some g ∧ g.ran = (lastParser s older).map (fun parser => (parser,raw)) ∧
        (lastParser s older = none → g.value = some (.string raw))
  | _ => True

/-- Every call returns, and the gets run the parsers of their sections. -/
def Stable : List (Call C V) → Prop
  | [] => True
  | c :: older => Stable older ∧ ∃ st got st', after older = .ok st ∧ st.call c = .ok (got,st') ∧
      RunsOwn older st got c

def parserNames : List (Call C V) → List Bytes
  | [] => []
  | .registerParser s _ :: older => s :: parserNames older
  | .registerCleaner _ _ :: older => parserNames older
  | .config _ :: older => parserNames older

def cleanerNames : List (Call C V) → List Bytes
  | [] => []
  | .registerParser _ _ :: older => cleanerNames older
  | .registerCleaner s _ :: older => s :: cleanerNames older
  | .config _ :: older => cleanerNames older

def ops : List (Call C V) → List (ConfigCenter.Op V)
  | [] => []
  | .registerParser _ _ :: older => ops older
  | .registerCleaner _ _ :: older => ops older
  | .config op :: older => op :: ops older

/-- The call looks into no bucket of a registry that has a key, and does not make one grow. -/
def Avoids (older : List (Call C V)) : Call C V → Prop
  | .registerParser s _ =>
      s.length < keySize ∧ Apart (parserNames older) s ∧ (parserNames older).length < 12
  | .registerCleaner s _ =>
      s.length < keySize ∧ Apart (cleanerNames older) s ∧ (cleanerNames older).length < 12
  | .config (.inject s k _) =>
      (∃ v, ConfigCenter.latest s k (ops older) = some (.assigned v)) → Apart (cleanerNames older) s
  | .config (.set s k _) =>
      (∃ v, ConfigCenter.latest s k (ops older) = some (.assigned v)) → Apart (cleanerNames older) s
  | .config (.get _ _ none) => True
  | .config (.get s k (some _)) => s.length < keySize ∧ k.length < keySize ∧
      ((∃ raw, ConfigCenter.latest s k (ops older) = some (.injected raw)) →
        Apart (parserNames older) s)

def AllAvoid : List (Call C V) → Prop
  | [] => True
  | c :: older => AllAvoid older ∧ Avoids older c

structure Settled (st : Configs C V) (calls : List (Call C V)) : Prop where
  gone : st.buffers = fun _ => none
  parsers : Files st.parsers (parserNames calls) st.fresh
  cleaners : Files st.cleaners (cleanerNames calls) st.fresh
  keeps : ConfigCenter.Keeps (fun _ => none) st.center (ops calls)

theorem settled_init : (configInit : Configs C V).Settled [] :=
  ⟨rfl,files_create 0,files_create 0,ConfigCenter.keeps_init⟩

theorem parserNames_of_lastParser {s : Bytes} {parser : ConfigParser V} {calls : List (Call C V)}
    (h : lastParser s calls = some parser) : s ∈ parserNames calls := by
  induction calls with
  | nil => simp [lastParser] at h
  | cons c older ih =>
    cases c with
    | registerParser s' parser' =>
      simp only [lastParser] at h
      split at h
      · rename_i hs
        rw [← hs]
        exact List.mem_cons_self ..
      · exact List.mem_cons_of_mem _ (ih h)
    | registerCleaner s' cleaner => exact ih h
    | config op => exact ih h

theorem lastParser_of_apart {s : Bytes} {calls : List (Call C V)}
    (h : Apart (parserNames calls) s) : lastParser s calls = none := by
  cases hlast : lastParser s calls with
  | none => rfl
  | some parser => exact absurd rfl (h s (parserNames_of_lastParser hlast))

section Stepping
variable {st : Configs C V} {older : List (Call C V)}

theorem returned_gone (h : st.buffers = fun _ => none) : st.returned.buffers = fun _ => none := by
  funext a
  simp [returned,h]

/-- What a call that avoids the keys does, and what any other does. -/
def Steps (older : List (Call C V)) (st : Configs C V) (c : Call C V) : Prop :=
  (Avoids older c → ∃ got st', st.call c = .ok (got,st') ∧ st'.Settled (c :: older) ∧
    RunsOwn older st got c) ∧
  (¬ Avoids older c → ∃ f, st.call c = .fault f)

theorem Settled.registerParser (h : st.Settled older) (s : Bytes) (parser : ConfigParser V) :
    Steps older st (.registerParser s parser) := by
  constructor
  · intro havoids
    obtain ⟨m',hm',hfiles⟩ := h.parsers.register s parser havoids
    refine ⟨none,{ st with parsers := m' }.returned,?_,⟨returned_gone h.gone,hfiles,
      h.cleaners.mono,h.keeps⟩,trivial⟩
    simp only [Configs.call,configRegisterParser,h.gone,hm',ok_bind]
  · intro hhit
    obtain ⟨f,hf⟩ := h.parsers.register_fault s parser hhit
    exact ⟨f,by simp only [Configs.call,configRegisterParser,h.gone,hf,fault_bind]⟩

theorem Settled.registerCleaner (h : st.Settled older) (s : Bytes) (cleaner : C) :
    Steps older st (.registerCleaner s cleaner) := by
  constructor
  · intro havoids
    obtain ⟨m',hm',hfiles⟩ := h.cleaners.register s cleaner havoids
    refine ⟨none,{ st with cleaners := m' }.returned,?_,⟨returned_gone h.gone,h.parsers.mono,
      hfiles,h.keeps⟩,trivial⟩
    simp only [Configs.call,configRegisterCleaner,h.gone,hm',ok_bind]
  · intro hhit
    obtain ⟨f,hf⟩ := h.cleaners.register_fault s cleaner hhit
    exact ⟨f,by simp only [Configs.call,configRegisterCleaner,h.gone,hf,fault_bind]⟩

theorem Settled.lookup (h : st.Settled older) (s k : Bytes) :
    st.center.lookup s k = (ConfigCenter.latest s k (ops older)).map fun
      | .assigned v => ⟨true,v⟩
      | .injected raw => ⟨false,.string raw⟩ := by
  rw [h.keeps.values s k]
  cases ConfigCenter.latest s k (ops older) with
  | none => rfl
  | some w => cases w <;> rfl

theorem Settled.write (h : st.Settled older) (s k : Bytes) (entry : ConfigValue V)
    (op : ConfigCenter.Op V) (written : ConfigCenter.Write V)
    (hentry : entry = ConfigCenter.keptValue (fun _ => none) s k false written)
    (hlatest : ∀ s' k', ConfigCenter.latest s' k' (op :: ops older) =
      if s = s' ∧ k = k' then some written else ConfigCenter.latest s' k' (ops older))
    (hasked : ∀ s' k', ConfigCenter.asked s' k' (op :: ops older) =
      if s = s' ∧ k = k' then false else ConfigCenter.asked s' k' (ops older)) :
    (((∃ v, ConfigCenter.latest s k (ops older) = some (.assigned v)) →
        Apart (cleanerNames older) s) →
      ∃ w, st.center.write (ConfigRegistry.get st.buffers st.cleaners) s k entry = .ok w ∧
        Settled { st with center := w.center } (.config op :: older)) ∧
    (¬ ((∃ v, ConfigCenter.latest s k (ops older) = some (.assigned v)) →
        Apart (cleanerNames older) s) →
      ∃ f, st.center.write (ConfigRegistry.get st.buffers st.cleaners) s k entry = .fault f) := by
  have hget := h.cleaners.get s
  rw [← h.gone] at hget
  have hlookup := h.lookup s k
  constructor
  · intro havoids
    obtain ⟨w,hw,hkeeps⟩ := h.keeps.write (fun _ => (none : Option C)) op written hentry
      hlatest hasked
    refine ⟨w,?_,h.gone,h.parsers,h.cleaners,hkeeps⟩
    rw [← hw]
    refine ConfigCenter.write_congr st.center entry fun old hold hcook => ?_
    rw [hget,if_pos (havoids ?_)]
    rw [hlookup] at hold
    obtain ⟨written,hwritten,rfl⟩ := Option.map_eq_some_iff.mp hold
    cases written with
    | assigned v => exact ⟨v,hwritten⟩
    | injected raw => exact absurd hcook Bool.false_ne_true
  · intro hhit
    obtain ⟨⟨v,hv⟩,hcollides⟩ := Classical.not_imp.mp hhit
    rw [if_neg hcollides] at hget
    rw [hv,Option.map_some] at hlookup
    exact ⟨_,ConfigCenter.write_fault hlookup rfl hget entry⟩

theorem Settled.get (h : st.Settled older) (s k : Bytes) (value : ConfigT V) :
    Steps older st (.config (.get s k (some value))) := by
  have hget := h.parsers.get s
  rw [← h.gone] at hget
  have hlookup := h.lookup s k
  constructor
  · rintro ⟨hs,hk,hapart⟩
    obtain ⟨got,hgot,hanswers,hkeeps⟩ := h.keeps.get hs hk value
    have hsame : st.center.configGet (ConfigRegistry.get st.buffers st.parsers) s k (some value) =
        .ok got := by
      rw [← hgot]
      refine ConfigCenter.configGet_congr st.center hs hk value fun entry hentry hraw => ?_
      rw [hget,if_pos (hapart ?_)]
      · rfl
      · rw [hlookup] at hentry
        obtain ⟨written,hwritten,rfl⟩ := Option.map_eq_some_iff.mp hentry
        cases written with
        | assigned v => exact absurd hraw Bool.noConfusion
        | injected raw => exact ⟨raw,hwritten⟩
    refine ⟨some got,{ st with center := got.center },by simp only [Configs.call,hsame,ok_bind],
      ⟨h.gone,h.parsers,h.cleaners,hkeeps⟩,fun raw hraw => ?_⟩
    rw [hlookup] at hraw
    obtain ⟨written,hwritten,heq⟩ := Option.map_eq_some_iff.mp hraw
    cases written with
    | assigned v => simp at heq
    | injected raw' =>
      simp only [ConfigValue.mk.injEq,true_and,ConfigT.string.injEq] at heq
      subst heq
      have hnone := lastParser_of_apart (hapart ⟨_,hwritten⟩)
      rw [hwritten] at hanswers
      simp only [ConfigCenter.Answers] at hanswers
      rw [hanswers,hnone]
      exact ⟨_,rfl,rfl,fun _ => rfl⟩
  · intro hhit
    by_cases hk : k.length < keySize
    · by_cases hs : s.length < keySize
      · have hcollides : ¬ ((∃ raw, ConfigCenter.latest s k (ops older) = some (.injected raw)) →
            Apart (parserNames older) s) := fun hc => hhit ⟨hs,hk,hc⟩
        obtain ⟨⟨raw,hraw⟩,hcollides⟩ := Classical.not_imp.mp hcollides
        rw [if_neg hcollides] at hget
        rw [hraw,Option.map_some] at hlookup
        refine ⟨.useAfterFree,?_⟩
        simp only [Configs.call]
        rw [ConfigCenter.configGet_eq _ _ hs hk,hlookup]
        simp [hget]
      · refine ⟨.outOfBounds,?_⟩
        simp only [Configs.call,ConfigCenter.configGet,strcpy,if_pos hk,if_neg hs,ok_bind,
          fault_bind]
    · refine ⟨.outOfBounds,?_⟩
      simp only [Configs.call,ConfigCenter.configGet,strcpy,if_neg hk,fault_bind]

theorem Settled.call (h : st.Settled older) (c : Call C V) : Steps older st c := by
  cases c with
  | registerParser s parser => exact h.registerParser s parser
  | registerCleaner s cleaner => exact h.registerCleaner s cleaner
  | config op =>
    cases op with
    | inject s k raw =>
      obtain ⟨hok,hfault⟩ := h.write s k ⟨false,.string raw⟩ (.inject s k raw)
        (.injected raw) rfl (fun _ _ => rfl) (fun _ _ => rfl)
      constructor
      · intro havoids
        obtain ⟨w,hw,hsettled⟩ := hok havoids
        refine ⟨none,_,?_,hsettled,trivial⟩
        simp only [Configs.call,ConfigCenter.configInject,hw,ok_bind]
      · intro hhit
        obtain ⟨f,hf⟩ := hfault hhit
        exact ⟨f,by simp only [Configs.call,ConfigCenter.configInject,hf,fault_bind]⟩
    | set s k value =>
      obtain ⟨hok,hfault⟩ := h.write s k ⟨true,value⟩ (.set s k value)
        (.assigned value) rfl (fun _ _ => rfl) (fun _ _ => rfl)
      constructor
      · intro havoids
        obtain ⟨w,hw,hsettled⟩ := hok havoids
        refine ⟨none,_,?_,hsettled,trivial⟩
        simp only [Configs.call,ConfigCenter.configSet,hw,ok_bind]
      · intro hhit
        obtain ⟨f,hf⟩ := hfault hhit
        exact ⟨f,by simp only [Configs.call,ConfigCenter.configSet,hf,fault_bind]⟩
    | get s k value =>
      cases value with
      | some value => exact h.get s k value
      | none =>
        refine ⟨fun _ => ⟨some ⟨-1,none,none,st.center⟩,st,rfl,⟨h.gone,h.parsers,h.cleaners,?_⟩,
          trivial⟩,fun hhit => absurd trivial hhit⟩
        exact ⟨h.keeps.sound,h.keeps.values⟩

end Stepping

theorem settled_after {calls : List (Call C V)} (havoid : AllAvoid calls) :
    ∃ st, after calls = .ok st ∧ st.Settled calls := by
  induction calls with
  | nil => exact ⟨configInit,rfl,settled_init⟩
  | cons c older ih =>
    obtain ⟨hrest,havoids⟩ := havoid
    obtain ⟨st,hst,hsettled⟩ := ih hrest
    obtain ⟨got,st',hcall,hsettled',_⟩ := (hsettled.call c).1 havoids
    refine ⟨st',?_,hsettled'⟩
    rw [after,hst,ok_bind,hcall,ok_bind]

/-- The parsers that gets run are those registered exactly in the runs that never look into a
bucket of a registry with a key in it, and register at most twelve names in each. -/
theorem stable_iff_avoids (calls : List (Call C V)) : Stable calls ↔ AllAvoid calls := by
  induction calls with
  | nil => exact Iff.rfl
  | cons c older ih =>
    rw [Stable,AllAvoid,ih]
    refine and_congr_right fun havoid => ?_
    obtain ⟨st,hst,hsettled⟩ := settled_after havoid
    obtain ⟨hok,hfault⟩ := hsettled.call c
    constructor
    · rintro ⟨st₁,got,st₁',hst₁,hcall,_⟩
      obtain rfl := Exec.ok.inj (hst.symm.trans hst₁)
      by_contra hhit
      obtain ⟨f,hf⟩ := hfault hhit
      rw [hf] at hcall
      exact absurd hcall (by simp)
    · intro havoids
      obtain ⟨got,st',hcall,_,hown⟩ := hok havoids
      exact ⟨st,got,st',hst,hcall,hown⟩
def lookupCalls : List (Call Unit Nat) :=
  [.config (.get [110,117,109] [109,97,120] (some .indeterminate)),
    .config (.inject [110,117,109] [109,97,120] [52,50]),
    .registerParser [110,117,109] fun _ raw => .ok (0,.value raw.length)]

theorem lookupCalls_unstable : ¬ Stable lookupCalls := by
  rintro ⟨_,st,got,st',hst,hcall,_⟩
  have hfault : (after lookupCalls.tail >>= fun st => st.call
      (.config (.get [110,117,109] [109,97,120] (some .indeterminate)))) =
      .fault .useAfterFree := rfl
  have hok : (after lookupCalls.tail >>= fun st => st.call
      (.config (.get [110,117,109] [109,97,120] (some .indeterminate)))) = .ok (got,st') := by
    rw [lookupCalls,List.tail_cons,hst,ok_bind,hcall]
  exact absurd (hok.symm.trans hfault) (by simp)

end Configs
end DnsRelay
