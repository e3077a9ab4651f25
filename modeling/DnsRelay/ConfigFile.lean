import DnsRelay.ConfigCenter
import DnsRelay.IpTable
set_option autoImplicit false

/-!
Loading of the configuration file, config_center.c. Every line is read into one
buffer, and a pointer into it stands for what follows in the buffer, up to its
end and past the line's own NUL.
-/

namespace DnsRelay

open Lib Lib.Exec

def lineSize : Nat := 256

def valueStrSize : Nat := 128

/-- The next line of a file and what is behind it; at most `n` characters are read. -/
def fgets : Nat → Bytes → Bytes × Bytes
  | 0, file => ([],file)
  | _+1, [] => ([],[])
  | n+1, c :: file =>
      if c = 10 then ([c],file)
      else
        let (line,rest) := fgets n file
        (c :: line,rest)

/-- What a line leaves in the buffer that it is read into. -/
def fgetsInto (line buffer : Bytes) : Bytes := line ++ 0 :: buffer.drop (line.length+1)

def scan (stop : UInt8 → Bool) (nc : Bytes) : Exec (Bytes × Bytes) :=
  let rest := nc.dropWhile fun b => !stop b
  if rest = [] then .fault .outOfBounds else .ok (nc.takeWhile fun b => !stop b,rest)

def copyToken (size : Nat) (token : Bytes) : Exec Bytes :=
  if token.length < size then .ok (token.takeWhile fun b => decide (b ≠ 0)) else .fault .outOfBounds

def endsHeader (b : UInt8) : Bool := decide (b = 93) || isSpace b

def endsKey (b : UInt8) : Bool := decide (b = 61) || isSpace b

def endsValue (b : UInt8) : Bool := isSpace b || decide (b = 0)

namespace ConfigCenter
variable {C V : Type}

/-- One turn of the loop: the current section and the center, or `none` where the loop breaks. -/
def loadLine (cleanerOf : Bytes → Exec (Option C)) (line section_ : Bytes) (c : ConfigCenter V) :
    Exec (Option (Bytes × ConfigCenter V)) := do
  let (_,nc) ← scan (fun b => !isSpace b) line
  if nc.head? = some 35 then .ok (some (section_,c))
  else if nc.head? = some 91 then do
    let (_,nc) ← scan (fun b => !isSpace b) nc.tail
    let (token,stop) ← scan endsHeader nc
    if stop.head? = some 0 then .ok none
    else do
      let sec ← copyToken keySize token
      .ok (some (sec,c))
  else do
    let (token,stop) ← scan endsKey nc
    if stop.head? = some 0 then .ok none
    else do
      let key ← copyToken keySize token
      let (token,_) ← scan endsValue stop.tail
      if token = [] then .ok none
      else do
        let value ← copyToken valueStrSize token
        let w ← c.configInject cleanerOf section_ key value
        .ok (some (section_,w.center))

/-- The loop over the file; a line takes at least one character. The center is given back with what
was not read. -/
def loadFrom (cleanerOf : Bytes → Exec (Option C)) :
    Nat → Bytes → Bytes → Bytes → ConfigCenter V → Exec (ConfigCenter V × Bytes)
  | _, [], _, _, c => .ok (c,[])
  | 0, _ :: _, _, _, _ => .diverge
  | fuel+1, b :: file, buffer, section_, c => do
      let (line,rest) := fgets (lineSize-1) (b :: file)
      let buffer := fgetsInto line buffer
      let next ← loadLine cleanerOf buffer section_ c
      match next with
      | none => .ok (c,rest)
      | some (section_,c) => loadFrom cleanerOf fuel rest buffer section_ c

/-- `none` is a file that cannot be opened; `buffer` is what the line buffer holds before. -/
def configLoadFile (cleanerOf : Bytes → Exec (Option C)) (buffer : Bytes) (c : ConfigCenter V) :
    Option Bytes → Exec (Int × ConfigCenter V × Bytes)
  | none => .ok (-1,c,[])
  | some file => do
      let (c,rest) ← loadFrom cleanerOf file.length file buffer [] c
      .ok (0,c,rest)

end ConfigCenter

theorem scan_eq_ok {stop : UInt8 → Bool} {nc token rest : Bytes} :
    scan stop nc = .ok (token,rest) ↔ nc = token ++ rest ∧ (∀ b ∈ token, stop b = false) ∧
      ∃ b, rest.head? = some b ∧ stop b = true := by
  unfold scan
  dsimp only
  constructor
  · intro h
    split at h
    · exact absurd h (by simp)
    · rename_i hrest
      obtain ⟨rfl,rfl⟩ := Prod.mk.inj (Exec.ok.inj h)
      refine ⟨List.takeWhile_append_dropWhile.symm,fun b hb => ?_,?_⟩
      · simpa using List.mem_takeWhile_imp hb
      · refine ⟨_,List.head?_eq_some_head hrest,?_⟩
        simpa using List.head_dropWhile_not (fun b => !stop b) hrest
  · rintro ⟨rfl,htoken,b,hb,hstop⟩
    obtain ⟨rest,rfl⟩ := List.head?_eq_some_iff.mp hb
    have hpass : ∀ c ∈ token, (!stop c) = true := fun c hc => by simp [htoken c hc]
    have hdrop : (token ++ b :: rest).dropWhile (fun b => !stop b) = b :: rest := by
      rw [List.dropWhile_append_of_pos hpass,List.dropWhile_cons_of_neg (by simp [hstop])]
    have htake : (token ++ b :: rest).takeWhile (fun b => !stop b) = token := by
      rw [List.takeWhile_append_of_pos hpass,List.takeWhile_cons_of_neg (by simp [hstop]),
        List.append_nil]
    rw [hdrop,htake,if_neg (List.cons_ne_nil _ _)]

theorem scan_token {stop : UInt8 → Bool} (token : Bytes) {rest : Bytes} {b : UInt8}
    (htoken : ∀ c ∈ token, stop c = false) (hstop : stop b = true) :
    scan stop (token ++ b :: rest) = .ok (token,b :: rest) :=
  scan_eq_ok.mpr ⟨rfl,htoken,b,rfl,hstop⟩

theorem copyToken_chars {size : Nat} {token : Bytes} (hlen : token.length < size)
    (hchars : (0 : UInt8) ∉ token) : copyToken size token = .ok token := by
  rw [copyToken,if_pos hlen,List.takeWhile_eq_self_iff.mpr]
  intro b hb
  exact decide_eq_true fun h0 => hchars (h0 ▸ hb)

theorem copyToken_eq_ok {size : Nat} {token s : Bytes} (h : copyToken size token = .ok s) :
    token.length < size ∧ s = token.takeWhile fun b => decide (b ≠ 0) := by
  unfold copyToken at h
  split at h
  · rename_i hlen
    exact ⟨hlen,(Exec.ok.inj h).symm⟩
  · exact absurd h (by simp)

theorem fgets_line {line rest : Bytes} {n : Nat} (hline : (10 : UInt8) ∉ line)
    (hlen : line.length < n) : fgets n (line ++ 10 :: rest) = (line ++ [10],rest) := by
  induction line generalizing n with
  | nil =>
    cases n with
    | zero => simp at hlen
    | succ n => simp [fgets]
  | cons c line ih =>
    cases n with
    | zero => simp at hlen
    | succ n =>
      have hc : c ≠ 10 := fun hc => hline (hc ▸ List.mem_cons_self ..)
      have hrest := ih (n := n) (fun h => hline (List.mem_cons_of_mem _ h))
        (Nat.lt_of_succ_lt_succ hlen)
      rw [List.cons_append,fgets,if_neg hc,hrest]
      rfl

theorem fgets_last {line : Bytes} {n : Nat} (hline : (10 : UInt8) ∉ line)
    (hlen : line.length ≤ n) : fgets n line = (line,[]) := by
  induction line generalizing n with
  | nil => cases n <;> rfl
  | cons c line ih =>
    cases n with
    | zero => simp at hlen
    | succ n =>
      have hc : c ≠ 10 := fun hc => hline (hc ▸ List.mem_cons_self ..)
      have hrest := ih (n := n) (fun h => hline (List.mem_cons_of_mem _ h))
        (Nat.le_of_succ_le_succ hlen)
      rw [fgets,if_neg hc,hrest]

namespace ConfigCenter
variable {C V : Type}

theorem assignment_eq_ok {cleanerOf : Bytes → Exec (Option C)} {nc s s' : Bytes}
    {c c' : ConfigCenter V} (h : (do
      let (token,stop) ← scan endsKey nc
      if stop.head? = some 0 then .ok none
      else do
        let key ← copyToken keySize token
        let (token,_) ← scan endsValue stop.tail
        if token = [] then .ok none
        else do
          let value ← copyToken valueStrSize token
          let w ← c.configInject cleanerOf s key value
          .ok (some (s,w.center))) = Exec.ok (some (s',c'))) :
    s' = s ∧ ∃ token stop value w, scan endsKey nc = .ok (token,stop) ∧ stop.head? ≠ some 0 ∧
      c.configInject cleanerOf s (token.takeWhile fun b => decide (b ≠ 0)) value = .ok w ∧
      c' = w.center := by
  obtain ⟨⟨token,stop⟩,htoken,h⟩ := bind_eq_ok.mp h
  dsimp only at h
  split at h
  · exact absurd h (by simp)
  · rename_i hstop
    obtain ⟨key,hkey,h⟩ := bind_eq_ok.mp h
    obtain ⟨⟨token',_⟩,_,h⟩ := bind_eq_ok.mp h
    dsimp only at h
    split at h
    · exact absurd h (by simp)
    · obtain ⟨value,_,h⟩ := bind_eq_ok.mp h
      obtain ⟨w,hw,h⟩ := bind_eq_ok.mp h
      obtain ⟨rfl,rfl⟩ := Prod.mk.inj (Option.some.inj (Exec.ok.inj h))
      obtain ⟨_,rfl⟩ := copyToken_eq_ok hkey
      exact ⟨rfl,token,stop,value,w,htoken,hstop,hw,rfl⟩

/-- What one turn can do: nothing, a new section without a bracket in its name, or one injection
under a key that does not start with a bracket. -/
theorem loadLine_cases {cleanerOf : Bytes → Exec (Option C)} {line s : Bytes} {c : ConfigCenter V}
    {s' : Bytes} {c' : ConfigCenter V}
    (h : loadLine cleanerOf line s c = .ok (some (s',c'))) :
    (s' = s ∧ c' = c) ∨ ((93 : UInt8) ∉ s' ∧ c' = c) ∨
      (s' = s ∧ ∃ key value w, key.head? ≠ some 91 ∧
        c.configInject cleanerOf s key value = .ok w ∧ c' = w.center) := by
  obtain ⟨⟨_,nc⟩,hskip,h⟩ := bind_eq_ok.mp h
  dsimp only at h
  split at h
  · obtain ⟨rfl,rfl⟩ := Prod.mk.inj (Option.some.inj (Exec.ok.inj h))
    exact .inl ⟨rfl,rfl⟩
  · split at h
    · obtain ⟨⟨_,nc'⟩,_,h⟩ := bind_eq_ok.mp h
      obtain ⟨⟨token,stop⟩,htoken,h⟩ := bind_eq_ok.mp h
      dsimp only at h
      split at h
      · exact absurd h (by simp)
      · obtain ⟨sec,hsec,h⟩ := bind_eq_ok.mp h
        obtain ⟨rfl,rfl⟩ := Prod.mk.inj (Option.some.inj (Exec.ok.inj h))
        obtain ⟨_,rfl⟩ := copyToken_eq_ok hsec
        refine .inr (.inl ⟨fun hmem => ?_,rfl⟩)
        have hend := (scan_eq_ok.mp htoken).2.1 93 ((List.takeWhile_prefix _).subset hmem)
        exact absurd hend (by decide)
    · rename_i _ hbracket
      obtain ⟨rfl,token,stop,value,w,htoken,_,hw,rfl⟩ := assignment_eq_ok h
      refine .inr (.inr ⟨rfl,_,value,w,?_,hw,rfl⟩)
      -- the key starts where the line does
      obtain ⟨rfl,_⟩ := scan_eq_ok.mp htoken
      cases token with
      | nil => simp
      | cons b token =>
        have hb : b ≠ 91 := by simpa using hbracket
        by_cases h0 : b = 0
        · simp [h0]
        · simp [h0,hb]

end ConfigCenter
end DnsRelay
