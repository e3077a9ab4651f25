import DnsRelay.ConfigParsers
set_option autoImplicit false

/-!
The list of upstream servers: which strings `server_config_parser` takes for one, and
which of its items lead back to the relay itself. The code knows a loopback address by
its text only.
-/

namespace DnsRelay

open Lib Lib.Exec

def upstreamTexts (value : Bytes) : List Bytes :=
  (if value.head? = some 44 then value.tail else value).splitOn 44

def InetPton.server (pton : InetPton) (text : Bytes) : Option NetEnd :=
  ((pton.v4 text).map fun address => ⟨address.1,.ipv4,serverPort⟩).or
    ((pton.v6 text).map fun address => ⟨address.1,.ipv6,serverPort⟩)

/-- 127.0.0.0/8, ::1, and ::ffff:127.0.0.0 with the addresses mapped like it. -/
def NetEnd.loopback (e : NetEnd) : Bool :=
  match e.version with
  | .ipv4 => decide (e.addr.head? = some 127)
  | .ipv6 => decide (e.addr = List.replicate 15 0 ++ [1]) ||
      decide (List.replicate 10 0 ++ [255,255,127] <+: e.addr)

/-- Each item is the literal of a server that is not the relay itself. -/
def ListsUsable (pton : InetPton) (value : Bytes) (ends : List NetEnd) : Prop :=
  (upstreamTexts value).map pton.server = ends.map some ∧ ∀ e ∈ ends, e.loopback = false

/-- The parser gives a list for usable servers only, the last one first, and otherwise -1. -/
structure ParsesUpstreams (pton : InetPton) (errno : Int) (value : Bytes) : Prop where
  gives : ∀ ends, serverConfigParser pton errno keyUpstreams value =
    .ok (0,.value (.upstreams ends)) ↔ ListsUsable pton value ends.reverse
  rejects : value ≠ [] → (∀ ends, ¬ ListsUsable pton value ends) →
    ∃ result, serverConfigParser pton errno keyUpstreams value = .ok (-1,result)

/-- What ends the parse: an item with one of the names of `validate_ipstr`, or no literal. -/
def InetPton.stops (pton : InetPton) (text : Bytes) : Bool :=
  validateIpstr text || (pton.server text).isNone

/-- The parse ends at an item, without printing an `errno` that is not zero; or it takes all
items, and none is a loopback address. -/
def RejectsLoopback (pton : InetPton) (errno : Int) (value : Bytes) : Prop :=
  value = [] ∨
    match (upstreamTexts value).find? pton.stops with
    | some text => validateIpstr text = true ∨ errno = 0
    | none => ∀ text ∈ upstreamTexts value, ∀ e, pton.server text = some e → e.loopback = false

/-- What `inet_pton` does with the strings of `validate_ipstr` and with the empty one: literals
are written in digits and dots, or in hexadecimal digits, colons and dots. -/
structure InetPton.Documented (pton : InetPton) : Prop where
  v4Chars : ∀ text, (pton.v4 text).isSome → ∀ c ∈ text, (48 ≤ c ∧ c ≤ 57) ∨ c = 46
  v6Chars : ∀ text, (pton.v6 text).isSome → ∀ c ∈ text, (48 ≤ c ∧ c ≤ 58) ∨ c = 46 ∨
    (65 ≤ c ∧ c ≤ 70) ∨ (97 ≤ c ∧ c ≤ 102)
  empty : pton.v4 [] = none ∧ pton.v6 [] = none
  v4Loopback : (pton.v4 [49,50,55,46,48,46,48,46,49]).map Subtype.val = some [127,0,0,1]
  v6Loopback : (pton.v6 [58,58,49]).map Subtype.val = some (List.replicate 15 0 ++ [1])

section Names
variable {pton : InetPton}

theorem toLower_eq {c d : UInt8} (h : toLower c = d) (hd : ¬ (97 ≤ d ∧ d ≤ 122)) : c = d := by
  unfold toLower at h
  split at h
  · rename_i hupper
    subst h
    simp only [UInt8.le_iff_toNat_le,UInt8.toNat_add,UInt8.reduceToNat] at hupper hd
    omega
  · exact h

theorem map_toLower_eq {text name : Bytes} (hname : ∀ d ∈ name, ¬ (97 ≤ d ∧ d ≤ 122))
    (h : text.map toLower = name) : text = name := by
  induction text generalizing name with
  | nil => exact h
  | cons c text ih =>
    subst h
    rw [List.map_cons,List.forall_mem_cons] at hname
    rw [List.map_cons,← toLower_eq rfl hname.1,← ih hname.2 rfl]

theorem strcasecmp_eq_zero (a b : Bytes) : strcasecmp a b = 0 ↔ a.map toLower = b.map toLower :=
  strcmp_eq_zero _ _

theorem toNat_of_toLower {c : UInt8} (h : toLower c = 108) : c.toNat = 108 ∨ c.toNat = 76 := by
  unfold toLower at h
  split at h
  · have hlt := c.toNat_lt
    have h := congrArg UInt8.toNat h
    simp only [UInt8.toNat_add,UInt8.reduceToNat] at h
    omega
  · exact .inl (congrArg UInt8.toNat h)

theorem not_server_of_ell (hpton : pton.Documented) {text : Bytes} {c : UInt8} (hc : c ∈ text)
    (hl : toLower c = 108) : pton.server text = none := by
  have hcase := toNat_of_toLower hl
  have h4 : pton.v4 text = none := by
    by_contra h
    have hchar := hpton.v4Chars text (Option.isSome_iff_ne_none.mpr h) c hc
    simp only [UInt8.le_iff_toNat_le,← UInt8.toNat_inj,UInt8.reduceToNat] at hchar
    omega
  have h6 : pton.v6 text = none := by
    by_contra h
    have hchar := hpton.v6Chars text (Option.isSome_iff_ne_none.mpr h) c hc
    simp only [UInt8.le_iff_toNat_le,← UInt8.toNat_inj,UInt8.reduceToNat] at hchar
    omega
  rw [InetPton.server,h4,h6]
  rfl

/-- None of the names is a server other than the relay itself. -/
theorem loopback_of_validateIpstr (hpton : pton.Documented) {text : Bytes}
    (h : validateIpstr text = true) {e : NetEnd} (he : pton.server text = some e) :
    e.loopback = true := by
  simp only [validateIpstr,Bool.or_eq_true,decide_eq_true_eq,strcasecmp_eq_zero] at h
  rcases h with (h | h) | h
  · obtain ⟨c,hc,hl⟩ : ∃ c ∈ text, toLower c = 108 := by
      have hmem : (108 : UInt8) ∈ text.map toLower := by rw [h]; decide
      exact List.mem_map.mp hmem
    rw [not_server_of_ell hpton hc hl] at he
    cases he
  · have hname : text.map toLower = [49,50,55,46,48,46,48,46,49] := h.trans (by decide)
    obtain rfl := map_toLower_eq (by simp) hname
    obtain ⟨address,h4,haddress⟩ := Option.map_eq_some_iff.mp hpton.v4Loopback
    rw [InetPton.server,h4] at he
    obtain rfl := Option.some.inj he
    simp [NetEnd.loopback,haddress]
  · have hname : text.map toLower = [58,58,49] := h.trans (by decide)
    obtain rfl := map_toLower_eq (by simp) hname
    have h4 : pton.v4 [58,58,49] = none := by
      by_contra h
      have hchar := hpton.v4Chars [58,58,49] (Option.isSome_iff_ne_none.mpr h) 58 (by decide)
      exact absurd hchar (by decide)
    obtain ⟨address,h6,haddress⟩ := Option.map_eq_some_iff.mp hpton.v6Loopback
    rw [InetPton.server,h4,h6] at he
    obtain rfl := Option.some.inj he
    simp [NetEnd.loopback,haddress]

end Names

section Parsing
variable {pton : InetPton} {errno : Int}

def upstreamsOf (pton : InetPton) (errno : Int) :
    List Bytes → List NetEnd → Exec (Option (List NetEnd))
  | [], ups => .ok (some ups)
  | text :: texts, ups => do
      let next ← upstreamItem pton errno text ups
      match next with
      | none => .ok none
      | some ups => upstreamsOf pton errno texts ups

theorem upstreamsOf_singleton (text : Bytes) (ups : List NetEnd) :
    upstreamsOf pton errno [text] ups = upstreamItem pton errno text ups := by
  rw [upstreamsOf]
  cases upstreamItem pton errno text ups with
  | ok next => cases next <;> rfl
  | fault e => rfl
  | diverge => rfl

theorem upstreamItems_eq {item cs text : Bytes} {texts : List Bytes} {ups : List NetEnd}
    (h : cs.splitOn 44 = text :: texts) :
    upstreamItems pton errno item ups cs =
      upstreamsOf pton errno ((item ++ text) :: texts) ups := by
  induction cs generalizing item text texts ups with
  | nil =>
    obtain ⟨rfl,rfl⟩ : [] = text ∧ [] = texts := by simpa using h
    rw [upstreamItems,upstreamsOf_singleton,List.append_nil]
  | cons c rest ih =>
    obtain ⟨text',texts',hrest⟩ := List.exists_cons_of_ne_nil (List.splitOn_ne_nil 44 rest)
    rw [List.splitOn_cons_eq_if_modifyHead,hrest] at h
    rw [upstreamItems]
    by_cases hc : c = 44
    · rw [if_pos (by simpa using hc)] at h
      obtain ⟨rfl,rfl⟩ : [] = text ∧ text' :: texts' = texts := by simpa using h
      rw [if_pos hc,List.append_nil,upstreamsOf]
      congr 1
      funext next
      cases next with
      | none => rfl
      | some ups => exact ih hrest
    · rw [if_neg (by simpa using hc)] at h
      obtain ⟨rfl,rfl⟩ : c :: text' = text ∧ texts' = texts := by simpa using h
      rw [if_neg hc,ih hrest,List.append_assoc]
      rfl

theorem serverConfigParser_eq {value : Bytes} (hne : value ≠ []) :
    serverConfigParser pton errno keyUpstreams value =
      (upstreamsOf pton errno (upstreamTexts value) [] >>= fun ups =>
        match ups with
        | none => .ok (-1,.indeterminate)
        | some ups => .ok (0,.value (.upstreams ups))) := by
  obtain ⟨text,texts,h⟩ := List.exists_cons_of_ne_nil
    (List.splitOn_ne_nil 44 (if value.head? = some 44 then value.tail else value))
  have hkey : strcmp keyUpstreams keyUpstreams = 0 := (strcmp_eq_zero _ _).mpr rfl
  have hitems : upstreamItems pton errno [] []
      (if value.head? = some 44 then value.tail else value) =
        upstreamsOf pton errno (upstreamTexts value) [] := by
    rw [upstreamItems_eq h,List.nil_append,upstreamTexts,h]
  rw [serverConfigParser,if_pos hkey,if_neg hne]
  exact congrArg (· >>= _) hitems

theorem upstreamItem_eq {text : Bytes} (hshort : text.length ≤ 63) (ups : List NetEnd) :
    upstreamItem pton errno text ups =
      if validateIpstr text then .ok none
      else match pton.server text with
        | some e => .ok (some (e :: ups))
        | none => if errno = 0 then .ok none else .fault .wildPointer := by
  rw [upstreamItem,if_pos (Nat.lt_succ_of_le hshort),ipstr2binary,InetPton.server]
  cases pton.v4 text with
  | some address => rfl
  | none =>
    cases pton.v6 text with
    | some address => rfl
    | none =>
      by_cases herrno : errno = 0
      · simp [herrno]
      · simp [herrno]

theorem upstreamsOf_append (errno : Int) {pre : List Bytes} (post : List Bytes)
    (hshort : ∀ text ∈ pre, text.length ≤ 63)
    (hpre : ∀ text ∈ pre, pton.stops text = false) (ups : List NetEnd) :
    upstreamsOf pton errno (pre ++ post) ups =
      upstreamsOf pton errno post ((pre.filterMap pton.server).reverse ++ ups) := by
  induction pre generalizing ups with
  | nil => rfl
  | cons text pre ih =>
    rw [List.forall_mem_cons] at hshort hpre
    obtain ⟨hname,hliteral⟩ : validateIpstr text = false ∧ (pton.server text).isNone = false := by
      simpa [InetPton.stops] using hpre.1
    cases hserver : pton.server text with
    | none => simp [hserver] at hliteral
    | some e =>
      rw [List.cons_append,upstreamsOf,upstreamItem_eq hshort.1,hname,hserver]
      simp only [Bool.false_eq_true,if_false,ok_bind]
      rw [ih hshort.2 hpre.2,List.filterMap_cons_some hserver,List.reverse_cons,List.append_assoc]
      rfl

theorem parses_all (errno : Int) {value : Bytes}
    (hshort : ∀ text ∈ upstreamTexts value, text.length ≤ 63)
    (hnone : (upstreamTexts value).find? pton.stops = none) (hne : value ≠ []) :
    ∃ ends : List NetEnd, (upstreamTexts value).map pton.server = ends.map some ∧
      serverConfigParser pton errno keyUpstreams value =
        .ok (0,.value (.upstreams ends.reverse)) := by
  have hpass : ∀ text ∈ upstreamTexts value, pton.stops text = false := by
    simpa using List.find?_eq_none.mp hnone
  refine ⟨(upstreamTexts value).filterMap pton.server,?_,?_⟩
  · generalize upstreamTexts value = texts at hpass
    induction texts with
    | nil => rfl
    | cons text texts ih =>
      rw [List.forall_mem_cons] at hpass
      cases hserver : pton.server text with
      | none => simp [InetPton.stops,hserver] at hpass
      | some e =>
        rw [List.map_cons,ih hpass.2,List.filterMap_cons_some hserver,List.map_cons,hserver]
  · have hparse := upstreamsOf_append errno [] hshort hpass []
    rw [List.append_nil,List.append_nil] at hparse
    rw [serverConfigParser_eq hne,hparse]
    rfl

/-- The answer of the parser is that to the item that ends the parse. -/
theorem parses_stop (errno : Int) {value text : Bytes}
    (hshort : ∀ text ∈ upstreamTexts value, text.length ≤ 63)
    (hstop : (upstreamTexts value).find? pton.stops = some text) (hne : value ≠ []) :
    serverConfigParser pton errno keyUpstreams value =
      if validateIpstr text = true ∨ errno = 0 then .ok (-1,.indeterminate)
      else .fault .wildPointer := by
  obtain ⟨hstops,pre,post,htexts,hpre⟩ := List.find?_eq_some_iff_append.mp hstop
  rw [serverConfigParser_eq hne]
  rw [htexts] at hshort ⊢
  rw [upstreamsOf_append errno _ (fun t ht => hshort t (List.mem_append_left _ ht))
    (by simpa using hpre),upstreamsOf,upstreamItem_eq (hshort text (by simp))]
  by_cases hname : validateIpstr text = true
  · simp [hname]
  · have hliteral : pton.server text = none := by simpa [InetPton.stops,hname] using hstops
    by_cases herrno : errno = 0
    · simp [hname,hliteral,herrno]
    · simp [hname,hliteral,herrno]

theorem not_listsUsable_of_stops (hpton : pton.Documented) {value text : Bytes}
    (hmem : text ∈ upstreamTexts value) (hstops : pton.stops text = true) (ends : List NetEnd) :
    ¬ ListsUsable pton value ends := by
  intro ⟨hservers,husable⟩
  have hmap : pton.server text ∈ ends.map some := hservers ▸ List.mem_map_of_mem hmem
  obtain ⟨e,he,hserver⟩ := List.mem_map.mp hmap
  have hname : validateIpstr text = true := by simpa [InetPton.stops,← hserver] using hstops
  have hloop := loopback_of_validateIpstr hpton hname hserver.symm
  rw [husable e he] at hloop
  cases hloop

/-- The upstream list is parsed as it should be exactly when no loopback address gets into it and
no `errno` is printed. -/
theorem parsesUpstreams_iff (hpton : pton.Documented) (errno : Int) {value : Bytes}
    (hshort : ∀ text ∈ upstreamTexts value, text.length ≤ 63) :
    ParsesUpstreams pton errno value ↔ RejectsLoopback pton errno value := by
  by_cases hne : value = []
  · subst hne
    have hstops : pton.stops [] = true := by
      simp [InetPton.stops,InetPton.server,hpton.empty.1,hpton.empty.2]
    have hunusable : ∀ ends, ¬ ListsUsable pton [] ends :=
      not_listsUsable_of_stops hpton (by simp [upstreamTexts]) hstops
    refine iff_of_true ⟨fun ends => iff_of_false ?_ (hunusable _),fun h => absurd rfl h⟩ (.inl rfl)
    simp [serverConfigParser,strcmp_eq_zero]
  · rw [RejectsLoopback,or_iff_right hne]
    cases hstop : (upstreamTexts value).find? pton.stops with
    | none =>
      obtain ⟨ends,hservers,hparse⟩ := parses_all errno hshort hstop hne
      have hends : ∀ ends' : List NetEnd, ends'.map some = ends.map some → ends' = ends :=
        fun _ h => List.map_injective_iff.mpr (Option.some_injective _) h
      have hiff : (∀ text ∈ upstreamTexts value, ∀ e, pton.server text = some e →
          e.loopback = false) ↔ ∀ e ∈ ends, e.loopback = false := by
        constructor
        · intro h e he
          have hmap : some e ∈ (upstreamTexts value).map pton.server :=
            hservers ▸ List.mem_map_of_mem he
          obtain ⟨text,htext,hserver⟩ := List.mem_map.mp hmap
          exact h text htext e hserver
        · intro h text htext e hserver
          have hmap : some e ∈ ends.map some :=
            hserver ▸ hservers ▸ List.mem_map_of_mem htext
          exact h e (by simpa using hmap)
      dsimp only
      rw [hiff]
      constructor
      · intro h
        have husable := (h.gives ends.reverse).mp hparse
        rw [List.reverse_reverse] at husable
        exact husable.2
      · intro hloop
        refine ⟨fun ends' => ?_,fun _ hnone => absurd ⟨hservers,hloop⟩ (hnone ends)⟩
        rw [hparse]
        constructor
        · intro h
          obtain rfl : ends.reverse = ends' := by simpa using h
          rw [List.reverse_reverse]
          exact ⟨hservers,hloop⟩
        · intro ⟨hservers',_⟩
          obtain rfl := hends _ (hservers'.symm.trans hservers)
          rw [List.reverse_reverse]
    | some text =>
      have hparse := parses_stop errno hshort hstop hne
      have hunusable := not_listsUsable_of_stops hpton (List.mem_of_find?_eq_some hstop)
        (List.find?_some hstop)
      dsimp only
      by_cases hreturns : validateIpstr text = true ∨ errno = 0
      · rw [if_pos hreturns] at hparse
        refine iff_of_true
          ⟨fun ends => iff_of_false ?_ (hunusable _),fun _ _ => ⟨_,hparse⟩⟩ hreturns
        rw [hparse]
        simp
      · rw [if_neg hreturns] at hparse
        refine iff_of_false (fun h => ?_) hreturns
        obtain ⟨result,hresult⟩ := h.rejects hne hunusable
        rw [hparse] at hresult
        cases hresult

end Parsing

section Examples

/-- `inet_pton` on 127.0.0.1, 127.0.0.2, 1.0.0.1, ::1 and ::2. -/
def fewPton : InetPton where
  v4 text :=
    if text = [49,50,55,46,48,46,48,46,49] then some ⟨[127,0,0,1],rfl⟩
    else if text = [49,50,55,46,48,46,48,46,50] then some ⟨[127,0,0,2],rfl⟩
    else if text = [49,46,48,46,48,46,49] then some ⟨[1,0,0,1],rfl⟩
    else none
  v6 text :=
    if text = [58,58,49] then some ⟨List.replicate 15 0 ++ [1],rfl⟩
    else if text = [58,58,50] then some ⟨List.replicate 15 0 ++ [2],rfl⟩
    else none

theorem documented_fewPton : fewPton.Documented where
  v4Chars text h := by
    have htexts : text = [49,50,55,46,48,46,48,46,49] ∨ text = [49,50,55,46,48,46,48,46,50] ∨
        text = [49,46,48,46,48,46,49] := by
      simp only [fewPton] at h
      split_ifs at h with h₁ h₂ h₃
      · exact .inl h₁
      · exact .inr (.inl h₂)
      · exact .inr (.inr h₃)
      · cases h
    rcases htexts with rfl | rfl | rfl <;> simp
  v6Chars text h := by
    have htexts : text = [58,58,49] ∨ text = [58,58,50] := by
      simp only [fewPton] at h
      split_ifs at h with h₁ h₂
      · exact .inl h₁
      · exact .inr h₂
      · cases h
    rcases htexts with rfl | rfl <;> simp
  empty := ⟨rfl,rfl⟩
  v4Loopback := rfl
  v6Loopback := rfl

theorem parsesUpstreams_two :
    ParsesUpstreams fewPton 2 [44,49,46,48,46,48,46,49,44,58,58,50] := by
  refine (parsesUpstreams_iff documented_fewPton 2 (by decide +kernel)).mpr (.inr ?_)
  have hpass : (upstreamTexts [44,49,46,48,46,48,46,49,44,58,58,50]).find? fewPton.stops =
      none := by decide +kernel
  rw [hpass]
  decide +kernel

theorem loopback_accepted : fewPton.Documented ∧
    serverConfigParser fewPton 0 keyUpstreams [49,50,55,46,48,46,48,46,50] =
      .ok (0,.value (.upstreams [⟨[127,0,0,2],.ipv4,serverPort⟩])) ∧
    ¬ ParsesUpstreams fewPton 0 [49,50,55,46,48,46,48,46,50] := by
  have hparse : serverConfigParser fewPton 0 keyUpstreams [49,50,55,46,48,46,48,46,50] =
      .ok (0,.value (.upstreams [⟨[127,0,0,2],.ipv4,serverPort⟩])) := by
    have hups : upstreamsOf fewPton 0 (upstreamTexts [49,50,55,46,48,46,48,46,50]) [] =
        .ok (some [⟨[127,0,0,2],.ipv4,serverPort⟩]) := by decide +kernel
    rw [serverConfigParser_eq (by simp),hups]
    rfl
  refine ⟨documented_fewPton,hparse,fun h => ?_⟩
  obtain ⟨_,hloop⟩ := (h.gives _).mp hparse
  exact absurd (hloop ⟨[127,0,0,2],.ipv4,serverPort⟩ (by simp)) (by decide)

end Examples

end DnsRelay
