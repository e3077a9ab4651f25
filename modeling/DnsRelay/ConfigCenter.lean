import DnsRelay.Stl
set_option autoImplicit false

/-!
The configuration of config_center.c: a map of sections, each a map of values
that stay the injected strings until a get has them parsed. The maps of parsers
and cleaners are asked through parameters.
-/

namespace DnsRelay

open Lib Lib.Exec

/-- What a `T` holds: a pointer to a string, any other value, or what an uninitialised variable
has. -/
inductive ConfigT (V : Type) where
  | string (s : Bytes)
  | value (v : V)
  | indeterminate
  deriving DecidableEq

structure ConfigValue (V : Type) where
  isCook : Bool
  value : ConfigT V

/-- The return value, and what `*result` holds then if it held nothing before. -/
abbrev ConfigParser (V : Type) := Bytes → Bytes → Exec (Int × ConfigT V)

abbrev ConfigSection (V : Type) := HashMap Bytes (ConfigValue V)

/-- A section is reached from its key only, and so is a value; the maps hold them themselves. -/
structure ConfigCenter (V : Type) where
  sections : HashMap Bytes (ConfigSection V)

def keySize : Nat := 64

def strcpy (size : Nat) (src : Bytes) : Exec Bytes :=
  if src.length < size then .ok src else .fault .outOfBounds

/-- The outcome of a get: the return value, `*value` (`none` when `value` is NULL), the parser that
was run with the string it read, and the center. -/
structure Got (V : Type) where
  code : Int
  value : Option (ConfigT V)
  ran : Option (ConfigParser V × Bytes)
  center : ConfigCenter V

/-- The outcome of a write; `cleaned` is the cleaner that was called and the old value it got. -/
structure Wrote (C V : Type) where
  code : Int
  cleaned : Option (C × ConfigT V)
  center : ConfigCenter V

namespace ConfigCenter
variable {C V : Type}

def init : ConfigCenter V := ⟨HashMap.create⟩

def readString : ConfigT V → Exec Bytes
  | .string s => .ok s
  | .value _ => .fault .wildPointer
  | .indeterminate => .fault .wildPointer

def store (c : ConfigCenter V) (section_ : Bytes) (sec : ConfigSection V) (key : Bytes)
    (entry : ConfigValue V) : ConfigCenter V :=
  ⟨(HashMap.put cstrHashing c.sections section_ (HashMap.put cstrHashing sec key entry).2).2⟩

def configGet (parserOf : Bytes → Exec (Option (ConfigParser V))) (c : ConfigCenter V)
    (section_ key : Bytes) : Option (ConfigT V) → Exec (Got V)
  | none => .ok ⟨-1,none,none,c⟩
  | some value => do
      let k ← strcpy keySize key
      let sk ← strcpy keySize section_
      match HashMap.get cstrHashing c.sections sk with
      | none => .ok ⟨1,some value,none,c⟩
      | some sec =>
        match HashMap.get cstrHashing sec k with
        | none => .ok ⟨1,some value,none,c⟩
        | some entry => do
          let parser ← if entry.isCook then .ok none else parserOf sk
          match parser with
          | none => .ok ⟨0,some entry.value,none,c⟩
          | some parser => do
              let raw ← readString entry.value
              let (code,tmp) ← parser k raw
              if code = 0 then
                .ok ⟨0,some tmp,some (parser,raw),c.store sk sec k ⟨true,tmp⟩⟩
              else .ok ⟨-1,some value,some (parser,raw),c⟩

/-- What the two writes share: the section is made when there is none, and a cooked value that is
replaced goes to the cleaner. -/
def write (cleanerOf : Bytes → Exec (Option C)) (c : ConfigCenter V) (section_ key : Bytes)
    (entry : ConfigValue V) : Exec (Wrote C V) := do
  let (sec,c) := match HashMap.get cstrHashing c.sections section_ with
    | some sec => (sec,c)
    | none => (HashMap.create,⟨(HashMap.put cstrHashing c.sections section_ HashMap.create).2⟩)
  let cleaned ← match HashMap.get cstrHashing sec key with
    | some old =>
        if old.isCook then do
          let cleaner ← cleanerOf section_
          .ok (cleaner.map fun cleaner => (cleaner,old.value))
        else .ok none
    | none => .ok none
  .ok ⟨0,cleaned,c.store section_ sec key entry⟩

def configSet (cleanerOf : Bytes → Exec (Option C)) (c : ConfigCenter V) (section_ key : Bytes)
    (value : ConfigT V) : Exec (Wrote C V) :=
  c.write cleanerOf section_ key ⟨true,value⟩

def configInject (cleanerOf : Bytes → Exec (Option C)) (c : ConfigCenter V)
    (section_ key value : Bytes) : Exec (Wrote C V) :=
  c.write cleanerOf section_ key ⟨false,.string value⟩

def lookup (c : ConfigCenter V) (section_ key : Bytes) : Option (ConfigValue V) :=
  (HashMap.get cstrHashing c.sections section_).bind fun sec => HashMap.get cstrHashing sec key

structure Sound (c : ConfigCenter V) : Prop where
  outer : HashMap.WellFormed cstrHashing c.sections
  inner : ∀ s sec, HashMap.get cstrHashing c.sections s = some sec →
    HashMap.WellFormed cstrHashing sec

theorem sound_init : (init : ConfigCenter V).Sound := by
  refine ⟨.create,fun s sec h => ?_⟩
  rw [init,HashMap.get_create] at h
  exact absurd h (by simp)

@[simp] theorem lookup_init (s k : Bytes) : (init : ConfigCenter V).lookup s k = none := by
  rw [lookup,init,HashMap.get_create,Option.bind_none]

theorem get_put_cstr {δ : Type} {m : HashMap Bytes δ} (h : HashMap.WellFormed cstrHashing m)
    (key : Bytes) (data : δ) (k : Bytes) :
    HashMap.get cstrHashing (HashMap.put cstrHashing m key data).2 k =
      if key = k then some data else HashMap.get cstrHashing m k := by
  rw [HashMap.get_put cstrHashing_lawful h]
  exact if_congr (strcmp_eq_zero key k) rfl rfl

section Storing
variable {c : ConfigCenter V} {s key : Bytes} {sec : ConfigSection V}

theorem Sound.store (h : c.Sound) (hsec : HashMap.WellFormed cstrHashing sec)
    (entry : ConfigValue V) : (c.store s sec key entry).Sound := by
  refine ⟨h.outer.put cstrHashing_lawful s _,fun s' sec' hget => ?_⟩
  rw [ConfigCenter.store,get_put_cstr h.outer] at hget
  split at hget
  · obtain rfl := Option.some.inj hget
    exact hsec.put cstrHashing_lawful key entry
  · exact h.inner s' sec' hget

theorem Sound.lookup_store (h : c.Sound) (hsec : HashMap.WellFormed cstrHashing sec)
    (hget : ∀ k, HashMap.get cstrHashing sec k = c.lookup s k) (entry : ConfigValue V)
    (s' k : Bytes) :
    (c.store s sec key entry).lookup s' k =
      if s = s' ∧ key = k then some entry else c.lookup s' k := by
  rw [lookup,ConfigCenter.store,get_put_cstr h.outer]
  by_cases hs : s = s'
  · subst hs
    rw [if_pos rfl,Option.bind_some,get_put_cstr hsec,hget k]
    exact if_congr (by simp) rfl rfl
  · rw [if_neg hs,if_neg fun hc => hs hc.1]
    rfl

theorem Sound.section (h : c.Sound) (hget : HashMap.get cstrHashing c.sections s = some sec) :
    HashMap.WellFormed cstrHashing sec ∧ ∀ k, HashMap.get cstrHashing sec k = c.lookup s k := by
  refine ⟨h.inner s sec hget,fun k => ?_⟩
  rw [lookup,hget,Option.bind_some]

theorem Sound.write (h : c.Sound) (cleanerOf : Bytes → Exec (Option C)) (entry : ConfigValue V)
    {cleaner : Option C}
    (hcleaner : ∀ old, c.lookup s key = some old → old.isCook = true →
      cleanerOf s = .ok cleaner) :
    ∃ w, c.write cleanerOf s key entry = .ok w ∧ w.code = 0 ∧ w.center.Sound ∧
      (∀ s' k, w.center.lookup s' k = if s = s' ∧ key = k then some entry else c.lookup s' k) ∧
      w.cleaned = (c.lookup s key).bind fun old =>
        if old.isCook then cleaner.map fun cleaner => (cleaner,old.value) else none := by
  cases hget : HashMap.get cstrHashing c.sections s with
  | some sec =>
    obtain ⟨hsec,hlookup⟩ := h.section hget
    simp only [ConfigCenter.write,hget,hlookup key]
    cases hold : c.lookup s key with
    | none =>
      exact ⟨⟨0,none,c.store s sec key entry⟩,rfl,rfl,h.store hsec entry,
        h.lookup_store hsec hlookup entry,rfl⟩
    | some old =>
      cases hcook : old.isCook with
      | false =>
        refine ⟨⟨0,none,c.store s sec key entry⟩,by simp [hcook],rfl,h.store hsec entry,
          h.lookup_store hsec hlookup entry,?_⟩
        simp [hcook]
      | true =>
        have hfound := hcleaner old hold hcook
        refine ⟨⟨0,cleaner.map fun cleaner => (cleaner,old.value),c.store s sec key entry⟩,
          by simp [hcook,hfound],rfl,
          h.store hsec entry,h.lookup_store hsec hlookup entry,?_⟩
        simp [hcook]
  | none =>
    have hnone : ∀ k, c.lookup s k = none := fun k => by rw [lookup,hget,Option.bind_none]
    have hmade : (⟨(HashMap.put cstrHashing c.sections s HashMap.create).2⟩ :
        ConfigCenter V).Sound := by
      refine ⟨h.outer.put cstrHashing_lawful s _,fun s' sec hsec => ?_⟩
      rw [get_put_cstr h.outer] at hsec
      split at hsec
      · obtain rfl := Option.some.inj hsec
        exact .create
      · exact h.inner s' sec hsec
    have hsame : ∀ s' k, (⟨(HashMap.put cstrHashing c.sections s HashMap.create).2⟩ :
        ConfigCenter V).lookup s' k = c.lookup s' k := by
      intro s' k
      rw [lookup,get_put_cstr h.outer]
      split
      · rename_i hs
        rw [Option.bind_some,HashMap.get_create,← hs,hnone k]
      · rfl
    have hempty : ∀ k, HashMap.get cstrHashing (HashMap.create : ConfigSection V) k =
        (⟨(HashMap.put cstrHashing c.sections s HashMap.create).2⟩ :
          ConfigCenter V).lookup s k := by
      intro k
      rw [hsame s k,hnone k,HashMap.get_create]
    simp only [ConfigCenter.write,hget,HashMap.get_create,ok_bind]
    refine ⟨⟨0,none,ConfigCenter.store ⟨(HashMap.put cstrHashing c.sections s HashMap.create).2⟩
      s HashMap.create key entry⟩,rfl,rfl,hmade.store .create entry,fun s' k => ?_,
      by rw [hnone key,Option.bind_none]⟩
    rw [hmade.lookup_store .create hempty entry s' k,hsame s' k]

def updated (c : ConfigCenter V) (s key : Bytes) (entry : ConfigValue V) : ConfigCenter V :=
  match HashMap.get cstrHashing c.sections s with
  | some sec => c.store s sec key entry
  | none => c

theorem Sound.updated (h : c.Sound) {old : ConfigValue V} (hold : c.lookup s key = some old)
    (entry : ConfigValue V) :
    (c.updated s key entry).Sound ∧ ∀ s' k, (c.updated s key entry).lookup s' k =
      if s = s' ∧ key = k then some entry else c.lookup s' k := by
  rw [ConfigCenter.updated]
  cases hget : HashMap.get cstrHashing c.sections s with
  | none =>
    rw [lookup,hget] at hold
    exact absurd hold (by simp)
  | some sec =>
    obtain ⟨hsec,hlookup⟩ := h.section hget
    exact ⟨h.store hsec entry,h.lookup_store hsec hlookup entry⟩

theorem strcpy_short {size : Nat} {src : Bytes} (h : src.length < size) :
    strcpy size src = .ok src := if_pos h

theorem configGet_eq (parserOf : Bytes → Exec (Option (ConfigParser V))) (c : ConfigCenter V)
    {s k : Bytes} (hs : s.length < keySize) (hk : k.length < keySize) (value : ConfigT V) :
    c.configGet parserOf s k (some value) = (match c.lookup s k with
      | none => .ok ⟨1,some value,none,c⟩
      | some entry => do
        let parser ← if entry.isCook then .ok none else parserOf s
        match parser with
        | none => .ok ⟨0,some entry.value,none,c⟩
        | some parser => do
            let raw ← readString entry.value
            let (code,tmp) ← parser k raw
            if code = 0 then
              .ok ⟨0,some tmp,some (parser,raw),c.updated s k ⟨true,tmp⟩⟩
            else .ok ⟨-1,some value,some (parser,raw),c⟩) := by
  simp only [configGet,strcpy_short hk,strcpy_short hs,ok_bind,lookup,ConfigCenter.updated]
  cases HashMap.get cstrHashing c.sections s with
  | none => rfl
  | some sec =>
    cases hentry : HashMap.get cstrHashing sec k with
    | none => simp only [Option.bind_some,hentry]
    | some entry => simp only [Option.bind_some,hentry]

theorem configGet_congr {parserOf parserOf' : Bytes → Exec (Option (ConfigParser V))}
    (c : ConfigCenter V) {s k : Bytes} (hs : s.length < keySize) (hk : k.length < keySize)
    (value : ConfigT V)
    (heq : ∀ entry, c.lookup s k = some entry → entry.isCook = false → parserOf s = parserOf' s) :
    c.configGet parserOf s k (some value) = c.configGet parserOf' s k (some value) := by
  rw [configGet_eq parserOf c hs hk,configGet_eq parserOf' c hs hk]
  cases hold : c.lookup s k with
  | none => rfl
  | some entry =>
    cases hcook : entry.isCook with
    | true => simp only [hcook,if_true]
    | false => simp only [hcook,Bool.false_eq_true,if_false,heq entry hold hcook]

theorem write_congr {cleanerOf cleanerOf' : Bytes → Exec (Option C)} (c : ConfigCenter V)
    {s k : Bytes} (entry : ConfigValue V)
    (heq : ∀ old, c.lookup s k = some old → old.isCook = true → cleanerOf s = cleanerOf' s) :
    c.write cleanerOf s k entry = c.write cleanerOf' s k entry := by
  simp only [ConfigCenter.write]
  cases hget : HashMap.get cstrHashing c.sections s with
  | none => simp only [HashMap.get_create]
  | some sec =>
    cases hold : HashMap.get cstrHashing sec k with
    | none => rfl
    | some old =>
      cases hcook : old.isCook with
      | false => simp only [hcook,Bool.false_eq_true,if_false]
      | true =>
        have hlookup : c.lookup s k = some old := by rw [lookup,hget,Option.bind_some,hold]
        simp only [hcook,if_true,heq old hlookup hcook]

theorem write_fault {cleanerOf : Bytes → Exec (Option C)} {c : ConfigCenter V} {s k : Bytes}
    {old : ConfigValue V} (hold : c.lookup s k = some old) (hcook : old.isCook = true) {f : Fault}
    (hfault : cleanerOf s = .fault f) (entry : ConfigValue V) :
    c.write cleanerOf s k entry = .fault f := by
  rw [lookup] at hold
  cases hget : HashMap.get cstrHashing c.sections s with
  | none =>
    rw [hget] at hold
    exact absurd hold (by simp)
  | some sec =>
    rw [hget,Option.bind_some] at hold
    simp only [ConfigCenter.write,hget,hold,hcook,if_true,hfault,fault_bind]

end Storing
end ConfigCenter
end DnsRelay
