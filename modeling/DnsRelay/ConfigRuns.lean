import DnsRelay.ConfigCenter
set_option autoImplicit false

/-!
Runs of the configuration with a fixed parser and cleaner for each section. What
a get answers depends on the latest write to its key alone, and on whether a get
came after it.
-/

namespace DnsRelay

open Lib Lib.Exec

namespace ConfigCenter
variable {C V : Type}

/-- The calls; `value` is what the result argument of a get points at, `none` for NULL. -/
inductive Op (V : Type) where
  | inject (section_ key value : Bytes)
  | set (section_ key : Bytes) (value : ConfigT V)
  | get (section_ key : Bytes) (value : Option (ConfigT V))

def Op.Short : Op V → Prop
  | .inject _ _ _ => True
  | .set _ _ _ => True
  | .get section_ key _ => section_.length < 64 ∧ key.length < 64

inductive Write (V : Type) where
  | injected (raw : Bytes)
  | assigned (value : ConfigT V)

def latest (s k : Bytes) : List (Op V) → Option (Write V)
  | [] => none
  | .inject s' k' raw :: older => if s' = s ∧ k' = k then some (.injected raw) else latest s k older
  | .set s' k' value :: older =>
      if s' = s ∧ k' = k then some (.assigned value) else latest s k older
  | .get _ _ _ :: older => latest s k older

def asked (s k : Bytes) : List (Op V) → Bool
  | [] => false
  | .inject s' k' _ :: older => if s' = s ∧ k' = k then false else asked s k older
  | .set s' k' _ :: older => if s' = s ∧ k' = k then false else asked s k older
  | .get _ _ none :: older => asked s k older
  | .get s' k' (some _) :: older => if s' = s ∧ k' = k then true else asked s k older

abbrev Parsers (V : Type) := Bytes → Option (Bytes → Bytes → Int × ConfigT V)

def parserOf (parsers : Parsers V) (s : Bytes) : Exec (Option (ConfigParser V)) :=
  .ok ((parsers s).map fun parser key raw => .ok (parser key raw))

section Running
variable (parsers : Parsers V) (cleaners : Bytes → Option C)

def call (c : ConfigCenter V) : Op V → Exec (ConfigCenter V)
  | .inject s k raw => do
      let w ← c.configInject (fun s => .ok (cleaners s)) s k raw
      .ok w.center
  | .set s k value => do
      let w ← c.configSet (fun s => .ok (cleaners s)) s k value
      .ok w.center
  | .get s k value => do
      let got ← c.configGet (parserOf parsers) s k value
      .ok got.center

def after : List (Op V) → Exec (ConfigCenter V)
  | [] => .ok init
  | op :: older => do
      let c ← after older
      call parsers cleaners c op

/-- What a get has to answer, by the latest write: nothing is there, or the value that was set, or
the injected string, or its parse. The parser runs when the string was not parsed before. -/
def Answers (c : ConfigCenter V) (s k : Bytes) (value : ConfigT V) (asked : Bool) (got : Got V) :
    Option (Write V) → Prop
  | none => got = ⟨1,some value,none,c⟩
  | some (.assigned v) => got = ⟨0,some v,none,c⟩
  | some (.injected raw) =>
    match parsers s with
    | none => got = ⟨0,some (.string raw),none,c⟩
    | some parser =>
      if (parser k raw).1 = 0 then
        got.code = 0 ∧ got.value = some (parser k raw).2 ∧
          if asked then got.ran = none ∧ got.center = c
          else got.ran = some (fun key raw => .ok (parser key raw),raw)
      else got = ⟨-1,some value,some (fun key raw => .ok (parser key raw),raw),c⟩

/-- The value that the center keeps for a key after its latest write. -/
def keptValue (s k : Bytes) (asked : Bool) : Write V → ConfigValue V
  | .assigned v => ⟨true,v⟩
  | .injected raw =>
    match parsers s with
    | none => ⟨false,.string raw⟩
    | some parser =>
      if asked = true ∧ (parser k raw).1 = 0 then ⟨true,(parser k raw).2⟩ else ⟨false,.string raw⟩

variable {parsers}

/-- The center keeps for each key what its latest write left. -/
structure Keeps (parsers : Parsers V) (c : ConfigCenter V) (calls : List (Op V)) : Prop where
  sound : c.Sound
  values : ∀ s k, c.lookup s k = (latest s k calls).map (keptValue parsers s k (asked s k calls))

theorem keeps_init : Keeps parsers init [] := ⟨sound_init,fun s k => by rw [lookup_init]; rfl⟩

section Keeping
variable {c : ConfigCenter V} {calls : List (Op V)}

theorem Keeps.write (h : Keeps parsers c calls) {s k : Bytes} {entry : ConfigValue V} (op : Op V)
    (written : Write V) (hentry : entry = keptValue parsers s k false written)
    (hlatest : ∀ s' k', latest s' k' (op :: calls) =
      if s = s' ∧ k = k' then some written else latest s' k' calls)
    (hasked : ∀ s' k', asked s' k' (op :: calls) =
      if s = s' ∧ k = k' then false else asked s' k' calls) :
    ∃ w, c.write (fun s => .ok (cleaners s)) s k entry = .ok w ∧
      Keeps parsers w.center (op :: calls) := by
  obtain ⟨w,hw,_,hsound,hlookup,_⟩ :=
    h.sound.write (s := s) (fun s => .ok (cleaners s)) entry fun _ _ _ => rfl
  refine ⟨w,hw,hsound,fun s' k' => ?_⟩
  rw [hlookup s' k',hlatest s' k',hasked s' k']
  split
  · rename_i hc
    obtain ⟨rfl,rfl⟩ := hc
    rw [hentry,Option.map_some]
  · exact h.values s' k'

/-- One get answers by the latest write, and the center keeps what it kept. -/
theorem Keeps.get (h : Keeps parsers c calls) {s k : Bytes} (hs : s.length < keySize)
    (hk : k.length < keySize) (value : ConfigT V) :
    ∃ got, c.configGet (parserOf parsers) s k (some value) = .ok got ∧
      Answers parsers c s k value (asked s k calls) got (latest s k calls) ∧
      Keeps parsers got.center (.get s k (some value) :: calls) := by
  have hkept := h.values s k
  have hmore : ∀ {c' : ConfigCenter V}, c'.Sound →
      (∀ s' k', c'.lookup s' k' = if s = s' ∧ k = k'
        then (latest s k calls).map (keptValue parsers s k true) else c.lookup s' k') →
      Keeps parsers c' (.get s k (some value) :: calls) := by
    intro c' hsound hlookup
    refine ⟨hsound,fun s' k' => ?_⟩
    rw [hlookup s' k',latest,asked]
    split
    · rename_i hc
      obtain ⟨rfl,rfl⟩ := hc
      rfl
    · exact h.values s' k'
  have hsame : (∀ w, latest s k calls = some w →
      keptValue parsers s k true w = keptValue parsers s k (asked s k calls) w) →
      Keeps parsers c (.get s k (some value) :: calls) := by
    intro hw
    refine hmore h.sound fun s' k' => ?_
    split
    · rename_i hc
      obtain ⟨rfl,rfl⟩ := hc
      rw [hkept]
      cases hlatest : latest s k calls with
      | none => rfl
      | some w => rw [Option.map_some,Option.map_some,hw w hlatest]
    · rfl
  rw [configGet_eq _ c hs hk value,hkept]
  cases hlatest : latest s k calls with
  | none =>
    exact ⟨_,rfl,rfl,hsame fun w hw => by rw [hlatest] at hw; exact absurd hw (by simp)⟩
  | some w =>
    cases w with
    | assigned v =>
      refine ⟨_,rfl,rfl,hsame fun w hw => ?_⟩
      rw [hlatest] at hw
      obtain rfl := Option.some.inj hw
      rfl
    | injected raw =>
      cases hparser : parsers s with
      | none =>
        refine ⟨⟨0,some (.string raw),none,c⟩,?_,?_,hsame fun w hw => ?_⟩
        · simp [keptValue,hparser,parserOf]
        · simp [Answers,hparser]
        · rw [hlatest] at hw
          obtain rfl := Option.some.inj hw
          simp [keptValue,hparser]
      | some parser =>
        by_cases hcode : (parser k raw).1 = 0
        · cases hasked : asked s k calls with
          | true =>
            refine ⟨⟨0,some (parser k raw).2,none,c⟩,?_,?_,hsame fun w _ => by rw [hasked]⟩
            · simp [keptValue,hparser,hcode]
            · simp [Answers,hparser,hcode]
          | false =>
            have hold : c.lookup s k = some ⟨false,.string raw⟩ := by
              rw [hkept,hlatest,hasked]
              simp [keptValue,hparser]
            obtain ⟨hsound,hlookup⟩ := h.sound.updated hold ⟨true,(parser k raw).2⟩
            refine ⟨⟨0,some (parser k raw).2,some (fun key raw => .ok (parser key raw),raw),
              c.updated s k ⟨true,(parser k raw).2⟩⟩,?_,?_,hmore hsound fun s' k' => ?_⟩
            · simp [keptValue,hparser,hcode,parserOf,readString]
            · simp [Answers,hparser,hcode]
            · rw [hlookup s' k',hlatest,Option.map_some]
              simp [keptValue,hparser,hcode]
        · refine ⟨⟨-1,some value,some (fun key raw => .ok (parser key raw),raw),c⟩,?_,?_,
            hsame fun w hw => ?_⟩
          · simp [keptValue,hparser,hcode,parserOf,readString]
          · simp [Answers,hparser,hcode]
          · rw [hlatest] at hw
            obtain rfl := Option.some.inj hw
            simp [keptValue,hparser,hcode]

theorem Keeps.call (h : Keeps parsers c calls) (op : Op V) (hshort : op.Short) :
    ∃ c', call parsers cleaners c op = .ok c' ∧ Keeps parsers c' (op :: calls) := by
  cases op with
  | inject s k raw =>
    have hentry : (⟨false,.string raw⟩ : ConfigValue V) =
        keptValue parsers s k false (.injected raw) := by
      cases hparser : parsers s with
      | none => simp [keptValue,hparser]
      | some parser => simp [keptValue,hparser]
    obtain ⟨w,hw,hkeeps⟩ := h.write cleaners (.inject s k raw) (.injected raw) hentry
      (fun _ _ => rfl) (fun _ _ => rfl)
    refine ⟨w.center,?_,hkeeps⟩
    rw [ConfigCenter.call,configInject,hw,ok_bind]
  | set s k value =>
    have hentry : (⟨true,value⟩ : ConfigValue V) =
        keptValue parsers s k false (.assigned value) := rfl
    obtain ⟨w,hw,hkeeps⟩ := h.write cleaners (.set s k value) (.assigned value) hentry
      (fun _ _ => rfl) (fun _ _ => rfl)
    refine ⟨w.center,?_,hkeeps⟩
    rw [ConfigCenter.call,configSet,hw,ok_bind]
  | get s k value =>
    cases value with
    | none => exact ⟨c,rfl,h.sound,h.values⟩
    | some value =>
      obtain ⟨got,hgot,_,hkeeps⟩ := h.get hshort.1 hshort.2 value
      refine ⟨got.center,?_,hkeeps⟩
      rw [ConfigCenter.call,hgot,ok_bind]

end Keeping

theorem keeps_after {calls : List (Op V)} (hshort : ∀ op ∈ calls, op.Short) :
    ∃ c, after parsers cleaners calls = .ok c ∧ Keeps parsers c calls := by
  induction calls with
  | nil => exact ⟨init,rfl,keeps_init⟩
  | cons op older ih =>
    obtain ⟨c,hc,hkeeps⟩ := ih fun op hop => hshort op (List.mem_cons_of_mem _ hop)
    obtain ⟨c',hc',hkeeps'⟩ := hkeeps.call cleaners op (hshort op (List.mem_cons_self ..))
    refine ⟨c',?_,hkeeps'⟩
    rw [after,hc,ok_bind,hc']

/-- After any calls a get answers by the latest write to its key: once parsed, a string is not
parsed again, and a get that fails leaves the center and its argument as they were. -/
theorem configGet_latest (parsers : Parsers V) (cleaners : Bytes → Option C) (calls : List (Op V))
    (hshort : ∀ op ∈ calls, op.Short) :
    ∃ c, after parsers cleaners calls = .ok c ∧
      ∀ s k value, s.length < 64 → k.length < 64 →
        ∃ got, c.configGet (parserOf parsers) s k (some value) = .ok got ∧
          Answers parsers c s k value (asked s k calls) got (latest s k calls) ∧
          (got.code ≠ 0 → got.value = some value ∧ got.center = c) := by
  obtain ⟨c,hc,hkeeps⟩ := keeps_after cleaners hshort
  refine ⟨c,hc,fun s k value hs hk => ?_⟩
  obtain ⟨got,hgot,hanswers,_⟩ := hkeeps.get hs hk value
  refine ⟨got,hgot,hanswers,fun hcode => ?_⟩
  cases hlatest : latest s k calls with
  | none =>
    rw [hlatest,Answers] at hanswers
    rw [hanswers]
    exact ⟨rfl,rfl⟩
  | some w =>
    rw [hlatest] at hanswers
    cases w with
    | assigned v =>
      rw [Answers] at hanswers
      exact absurd (by rw [hanswers]) hcode
    | injected raw =>
      rw [Answers] at hanswers
      split at hanswers
      · exact absurd (by rw [hanswers]) hcode
      · split at hanswers
        · exact absurd hanswers.1 hcode
        · rw [hanswers]
          exact ⟨rfl,rfl⟩

def lengthParsers : Parsers Nat := fun s =>
  if s = [110,117,109] then some fun _ raw => (0,.value raw.length) else none

def parsedCalls : List (Op Nat) :=
  [.get [110,117,109] [109,97,120] (some .indeterminate),
    .inject [110,117,109] [109,97,120] [49,50,56]]

theorem configGet_latest_parsed :
    ∃ c, after lengthParsers (fun _ => (none : Option Unit)) parsedCalls = .ok c ∧
      ∀ s k value, s.length < 64 → k.length < 64 →
        ∃ got, c.configGet (parserOf lengthParsers) s k (some value) = .ok got ∧
          Answers lengthParsers c s k value (asked s k parsedCalls) got (latest s k parsedCalls) ∧
          (got.code ≠ 0 → got.value = some value ∧ got.center = c) :=
  configGet_latest lengthParsers (fun _ => none) parsedCalls (by simp [parsedCalls,Op.Short])

end Running
end ConfigCenter
end DnsRelay
