import DnsRelay.ConfigFile
set_option autoImplicit false

/-!
The grammar of the configuration file. Folding its lines in order says what
loading should do; the loader agrees but for what a blank line makes it read
behind its NUL, and for brackets in names and keys.
-/

namespace DnsRelay

open Lib Lib.Exec ConfigCenter

namespace ConfigFile
variable {C V : Type}

inductive Line where
  | blank (spaces : Bytes)
  | comment (spaces text : Bytes)
  | header (section_ : Bytes)
  | assign (key value : Bytes)

def Line.text : Line → Bytes
  | .blank spaces => spaces
  | .comment spaces text => spaces ++ 35 :: text
  | .header s => 91 :: (s ++ [93])
  | .assign k v => k ++ 61 :: v

def Blanks (s : Bytes) : Prop := ∀ b ∈ s, isSpace b = true ∧ b ≠ 10

def Solid (s : Bytes) : Prop := s ≠ [] ∧ ∀ b ∈ s, isSpace b = false ∧ b ≠ 0

/-- A line of the format. What starts as a comment is none of the others. -/
def Line.Valid (l : Line) : Prop :=
  l.text.length ≤ 254 ∧ match l with
  | .blank spaces => Blanks spaces
  | .comment spaces text => Blanks spaces ∧ (10 : UInt8) ∉ text
  | .header s => Solid s ∧ s.length < keySize
  | .assign k v => Solid k ∧ Solid v ∧ (61 : UInt8) ∉ k ∧ k.head? ≠ some 35 ∧
      k.length < keySize ∧ v.length < valueStrSize

/-- A line in the file; the last one may lack its newline. -/
structure Row where
  line : Line
  newline : Bool

def Row.bytes (r : Row) : Bytes := r.line.text ++ if r.newline then [10] else []

def fileOf (rows : List Row) : Bytes := rows.flatMap Row.bytes

def Formed : List Row → Prop
  | [] => True
  | r :: rows => r.line.Valid ∧ (r.newline = true ∨ r.line.text ≠ [] ∧ rows = []) ∧ Formed rows

/-- The configuration that the lines say, from a current section on. -/
def foldLines (cleanerOf : Bytes → Exec (Option C)) :
    Bytes → ConfigCenter V → List Row → Exec (ConfigCenter V)
  | _, c, [] => .ok c
  | s, c, r :: rows =>
    match r.line with
    | .blank _ => foldLines cleanerOf s c rows
    | .comment _ _ => foldLines cleanerOf s c rows
    | .header s' => foldLines cleanerOf s' c rows
    | .assign k v => do
        let w ← c.configInject cleanerOf s k v
        foldLines cleanerOf s w.center rows

/-- Loading reads the whole file and leaves what folding its lines does. -/
def Loads (C V : Type) (buffer : Bytes) (rows : List Row) : Prop :=
  ∀ (cleaners : Bytes → Option C) (c : ConfigCenter V),
    configLoadFile (fun s => .ok (cleaners s)) buffer c (some (fileOf rows)) = (do
      let c ← foldLines (fun s => .ok (cleaners s)) [] c rows
      .ok (0,c,[]))

def assignments : Bytes → List Row → List (Bytes × Bytes)
  | _, [] => []
  | s, r :: rows =>
    match r.line with
    | .blank _ => assignments s rows
    | .comment _ _ => assignments s rows
    | .header s' => assignments s' rows
    | .assign k _ => (s,k) :: assignments s rows

def bufferAfter (buffer : Bytes) (rows : List Row) : Bytes :=
  rows.foldl (fun buffer r => fgetsInto r.bytes buffer) buffer

/-- What follows the NUL of a blank line in the buffer has a key that fits, and no value. -/
def Harmless (left : Bytes) : Prop :=
  ∃ token b rest, left = token ++ b :: rest ∧ (∀ c ∈ token, endsKey c = false) ∧
    endsKey b = true ∧ token.length+1 < keySize ∧ ∃ d, rest.head? = some d ∧ endsValue d = true

def BlankLast (buffer : Bytes) (rows : List Row) : Prop :=
  ∀ pre spaces newline post, rows = pre ++ ⟨.blank spaces,newline⟩ :: post →
    post = [] ∧ Harmless ((bufferAfter buffer pre).drop
      ((Row.mk (.blank spaces) newline).bytes.length+1))

/-- No assignment has a key that starts with a bracket or stands under a name with one, and a blank
line is the last one and harmless. -/
structure Loadable (buffer s : Bytes) (rows : List Row) : Prop where
  named : ∀ a ∈ assignments s rows, (93 : UInt8) ∉ a.1 ∧ a.2.head? ≠ some 91
  blank : BlankLast buffer rows

def cut (s : Bytes) : Bytes := s.takeWhile fun b => decide (b ≠ 93)

theorem cut_eq {s : Bytes} (h : (93 : UInt8) ∉ s) : cut s = s := by
  rw [cut,List.takeWhile_eq_self_iff]
  intro b hb
  exact decide_eq_true fun he => h (he ▸ hb)

theorem cut_notMem (s : Bytes) : (93 : UInt8) ∉ cut s := by
  intro h
  have hb := List.mem_takeWhile_imp h
  simp at hb

theorem exists_cut (s rest : Bytes) : ∃ rest', s ++ 93 :: rest = cut s ++ 93 :: rest' := by
  induction s with
  | nil => exact ⟨rest,rfl⟩
  | cons b s ih =>
    by_cases hb : b = 93
    · exact ⟨s ++ 93 :: rest,by simp [cut,hb]⟩
    · obtain ⟨rest',hrest⟩ := ih
      refine ⟨rest',?_⟩
      rw [cut] at hrest ⊢
      rw [List.cons_append,hrest,List.takeWhile_cons_of_pos (by simpa using hb),List.cons_append]

theorem isSpace_of_solid {s : Bytes} (h : Solid s) : ∀ b ∈ s, isSpace b = false :=
  fun b hb => (h.2 b hb).1

theorem zero_notMem_solid {s : Bytes} (h : Solid s) : (0 : UInt8) ∉ s := fun h0 => (h.2 0 h0).2 rfl

theorem newline_notMem {l : Line} (h : l.Valid) : (10 : UInt8) ∉ l.text := by
  have hsolid : ∀ {s : Bytes}, Solid s → (10 : UInt8) ∉ s := fun hs hmem =>
    absurd (isSpace_of_solid hs 10 hmem) (by decide)
  cases l with
  | blank spaces => exact fun hmem => (h.2 10 hmem).2 rfl
  | comment spaces text =>
    obtain ⟨hspaces,htext⟩ := h.2
    have hpre : (10 : UInt8) ∉ spaces := fun hmem => (hspaces 10 hmem).2 rfl
    simp [Line.text,hpre,htext]
  | header s =>
    have hs := hsolid h.2.1
    simp [Line.text,hs]
  | assign k v =>
    have hk := hsolid h.2.1
    have hv := hsolid h.2.2.1
    simp [Line.text,hk,hv]

theorem fgetsInto_row (r : Row) (buffer : Bytes) :
    ∃ b rest, fgetsInto r.bytes buffer = r.line.text ++ b :: rest ∧ (b = 10 ∨ b = 0) := by
  rw [fgetsInto,Row.bytes]
  cases r.newline with
  | true => exact ⟨10,0 :: buffer.drop (r.line.text.length+1+1),by simp,.inl rfl⟩
  | false => exact ⟨0,buffer.drop (r.line.text.length+1),by simp,.inr rfl⟩

section Turns
variable (cleanerOf : Bytes → Exec (Option C)) (s : Bytes) (c : ConfigCenter V)

theorem loadLine_comment {spaces : Bytes} (hspaces : Blanks spaces) (rest : Bytes) :
    loadLine cleanerOf (spaces ++ 35 :: rest) s c = .ok (some (s,c)) := by
  have hskip : scan (fun b => !isSpace b) (spaces ++ 35 :: rest) = .ok (spaces,35 :: rest) :=
    scan_token spaces (fun b hb => by simp [(hspaces b hb).1]) (by decide)
  rw [loadLine,hskip]
  rfl

theorem loadLine_header {name : Bytes} (hname : Solid name) (hlen : name.length < keySize)
    (rest : Bytes) :
    loadLine cleanerOf (91 :: (name ++ 93 :: rest)) s c = .ok (some (cut name,c)) := by
  have hskip : scan (fun b => !isSpace b) (91 :: (name ++ 93 :: rest)) =
      .ok ([],91 :: (name ++ 93 :: rest)) :=
    scan_token [] (by simp) (by decide)
  obtain ⟨b,tail,rfl⟩ := List.exists_cons_of_ne_nil hname.1
  have hb := isSpace_of_solid hname b (List.mem_cons_self ..)
  have hskip' : scan (fun b => !isSpace b) (b :: tail ++ 93 :: rest) =
      .ok ([],b :: tail ++ 93 :: rest) :=
    scan_token [] (by simp) (by simp [hb])
  have hcut : ∀ d ∈ cut (b :: tail), endsHeader d = false := by
    intro d hd
    have hspace := isSpace_of_solid hname d ((List.takeWhile_prefix _).subset hd)
    have h93 : d ≠ 93 := fun he => cut_notMem _ (he ▸ hd)
    simp [endsHeader,hspace,h93]
  obtain ⟨rest',hsplit⟩ := exists_cut (b :: tail) rest
  have htoken : scan endsHeader (b :: tail ++ 93 :: rest) = .ok (cut (b :: tail),93 :: rest') := by
    rw [hsplit]
    exact scan_token _ hcut (by decide)
  have hshort : (cut (b :: tail)).length < keySize :=
    Nat.lt_of_le_of_lt (List.takeWhile_prefix _).length_le hlen
  have hcopy : copyToken keySize (cut (b :: tail)) = .ok (cut (b :: tail)) :=
    copyToken_chars hshort fun h0 => zero_notMem_solid hname ((List.takeWhile_prefix _).subset h0)
  rw [loadLine,hskip,ok_bind]
  simp only [List.head?_cons,Option.some.injEq,if_true,List.tail_cons]
  rw [if_neg (by decide),hskip',ok_bind]
  dsimp only
  rw [htoken,ok_bind]
  simp only [List.head?_cons,Option.some.injEq]
  rw [if_neg (by decide),hcopy,ok_bind]

theorem loadLine_assign {k v : Bytes} (hk : Solid k) (hv : Solid v) (hequals : (61 : UInt8) ∉ k)
    (hcomment : k.head? ≠ some 35) (hbracket : k.head? ≠ some 91) (hklen : k.length < keySize)
    (hvlen : v.length < valueStrSize) {b : UInt8} (hb : b = 10 ∨ b = 0) (rest : Bytes) :
    loadLine cleanerOf (k ++ 61 :: (v ++ b :: rest)) s c = (do
      let w ← c.configInject cleanerOf s k v
      .ok (some (s,w.center))) := by
  obtain ⟨d,tail,rfl⟩ := List.exists_cons_of_ne_nil hk.1
  have hd := isSpace_of_solid hk d (List.mem_cons_self ..)
  have hskip : scan (fun b => !isSpace b) (d :: tail ++ 61 :: (v ++ b :: rest)) =
      .ok ([],d :: tail ++ 61 :: (v ++ b :: rest)) :=
    scan_token [] (by simp) (by simp [hd])
  have hkey : scan endsKey (d :: tail ++ 61 :: (v ++ b :: rest)) =
      .ok (d :: tail,61 :: (v ++ b :: rest)) := by
    refine scan_token _ (fun e he => ?_) (by decide)
    have hne : e ≠ 61 := fun h61 => hequals (h61 ▸ he)
    simp [endsKey,isSpace_of_solid hk e he,hne]
  have hvalue : scan endsValue (v ++ b :: rest) = .ok (v,b :: rest) := by
    refine scan_token _ (fun e he => ?_) (by rcases hb with rfl | rfl <;> decide)
    simp [endsValue,hv.2 e he]
  rw [loadLine,hskip,ok_bind]
  dsimp only
  rw [List.cons_append,List.head?_cons,if_neg (by simpa using hcomment),
    if_neg (by simpa using hbracket),← List.cons_append,hkey,ok_bind]
  dsimp only
  rw [if_neg (by simp),copyToken_chars hklen (zero_notMem_solid hk),ok_bind,List.tail_cons,hvalue,
    ok_bind]
  dsimp only
  rw [if_neg hv.1,copyToken_chars hvlen (zero_notMem_solid hv),ok_bind]

theorem loadLine_spaces {spaces : Bytes} (left : Bytes)
    (hspaces : ∀ b ∈ spaces, isSpace b = true) :
    loadLine cleanerOf (spaces ++ 0 :: left) s c = (do
      let (token,stop) ← scan endsKey (0 :: left)
      if stop.head? = some 0 then .ok none
      else do
        let key ← copyToken keySize token
        let (token,_) ← scan endsValue stop.tail
        if token = [] then .ok none
        else do
          let value ← copyToken valueStrSize token
          let w ← c.configInject cleanerOf s key value
          .ok (some (s,w.center))) := by
  have hskip : scan (fun b => !isSpace b) (spaces ++ 0 :: left) = .ok (spaces,0 :: left) :=
    scan_token spaces (fun b hb => by simp [hspaces b hb]) (by decide)
  rw [loadLine,hskip]
  exact ok_bind _ _

/-- Behind the NUL of a blank line the loop breaks at an empty value, or injects under an empty
key. -/
theorem loadLine_blank {spaces : Bytes} (left : Bytes) (hspaces : ∀ b ∈ spaces, isSpace b = true) :
    (loadLine cleanerOf (spaces ++ 0 :: left) s c = .ok none ↔ Harmless left) ∧
    ∀ s' c', loadLine cleanerOf (spaces ++ 0 :: left) s c = .ok (some (s',c')) →
      ∃ value w, c.configInject cleanerOf s [] value = .ok w ∧ c' = w.center := by
  have hline := loadLine_spaces cleanerOf s c left hspaces
  constructor
  · rw [hline]
    constructor
    · intro h
      obtain ⟨⟨token,stop⟩,htoken,h⟩ := bind_eq_ok.mp h
      obtain ⟨hsplit,hpass,e,he,hends⟩ := scan_eq_ok.mp htoken
      obtain ⟨rest,rfl⟩ := List.head?_eq_some_iff.mp he
      dsimp only at h
      have he0 : e ≠ 0 := by
        rintro rfl
        exact absurd hends (by decide)
      rw [if_neg (by simpa using he0)] at h
      obtain ⟨key,hkey,h⟩ := bind_eq_ok.mp h
      obtain ⟨⟨token',rest'⟩,hvalue,h⟩ := bind_eq_ok.mp h
      obtain ⟨hrest,_,d,hd,hdends⟩ := scan_eq_ok.mp hvalue
      dsimp only at h
      split at h
      · rename_i hempty
        subst hempty
        rw [List.tail_cons,List.nil_append] at hrest
        subst hrest
        -- the token starts with the NUL
        cases token with
        | nil =>
          obtain ⟨rfl,_⟩ := List.cons.inj hsplit
          exact absurd rfl he0
        | cons f token =>
          obtain ⟨rfl,rfl⟩ := List.cons.inj hsplit
          exact ⟨token,e,rest,rfl,fun g hg => hpass g (List.mem_cons_of_mem _ hg),hends,
            (copyToken_eq_ok hkey).1,d,hd,hdends⟩
      · obtain ⟨value,_,h⟩ := bind_eq_ok.mp h
        obtain ⟨w,_,h⟩ := bind_eq_ok.mp h
        exact absurd h (by simp)
    · rintro ⟨token,e,rest,rfl,hpass,hends,hlen,d,hd,hdends⟩
      have htoken : scan endsKey (0 :: (token ++ e :: rest)) = .ok (0 :: token,e :: rest) := by
        refine scan_token (0 :: token) (fun g hg => ?_) hends
        rcases List.mem_cons.mp hg with rfl | hg
        · decide
        · exact hpass g hg
      have he0 : e ≠ 0 := by
        rintro rfl
        exact absurd hends (by decide)
      obtain ⟨rest',rfl⟩ := List.head?_eq_some_iff.mp hd
      have hvalue : scan endsValue (d :: rest') = .ok ([],d :: rest') :=
        scan_token [] (by simp) hdends
      rw [htoken,ok_bind]
      dsimp only
      have hshort : (0 :: token).length < keySize := hlen
      rw [if_neg (by simpa using he0),copyToken,if_pos hshort,ok_bind,List.tail_cons,hvalue,ok_bind]
      rfl
  · intro s' c' h
    rw [hline] at h
    obtain ⟨rfl,token,stop,value,w,htoken,h0,hw,rfl⟩ := assignment_eq_ok h
    have hsplit := (scan_eq_ok.mp htoken).1
    refine ⟨value,w,?_,rfl⟩
    cases token with
    | nil =>
      rw [List.nil_append] at hsplit
      rw [← hsplit] at h0
      exact absurd rfl h0
    | cons f token =>
      obtain ⟨rfl,_⟩ := List.cons.inj hsplit
      simpa using hw

end Turns

theorem isSpace_of_blank {spaces : Bytes} (h : Blanks spaces) (newline : Bool) :
    ∀ b ∈ (Row.mk (.blank spaces) newline).bytes, isSpace b = true := by
  intro b hb
  rw [Row.bytes] at hb
  rcases List.mem_append.mp hb with hb | hb
  · exact (h b hb).1
  · cases newline with
    | true =>
      rw [List.mem_singleton.mp hb]
      decide
    | false => simp at hb

theorem row_ne_nil {r : Row} {rows : List Row} (h : Formed (r :: rows)) : r.bytes ≠ [] := by
  rw [Row.bytes]
  rcases h.2.1 with hnl | ⟨hne,_⟩
  · simp [hnl]
  · simp [hne]

theorem loadFrom_row (cleanerOf : Bytes → Exec (Option C)) {r : Row} {rows : List Row}
    (h : Formed (r :: rows)) {fuel : Nat} (hfuel : (fileOf (r :: rows)).length ≤ fuel)
    (buffer s : Bytes) (c : ConfigCenter V) :
    ∃ fuel', (fileOf rows).length ≤ fuel' ∧
      loadFrom cleanerOf fuel (fileOf (r :: rows)) buffer s c = (do
        let next ← loadLine cleanerOf (fgetsInto r.bytes buffer) s c
        match next with
        | none => .ok (c,fileOf rows)
        | some (s,c) => loadFrom cleanerOf fuel' (fileOf rows) (fgetsInto r.bytes buffer) s c) := by
  have hne := row_ne_nil h
  have hpos := List.length_pos_of_ne_nil hne
  have hfile : fileOf (r :: rows) = r.bytes ++ fileOf rows := by rw [fileOf,List.flatMap_cons]; rfl
  have hlen : r.line.text.length < lineSize-1 := Nat.lt_of_le_of_lt h.1.1 (by decide)
  have hread : fgets (lineSize-1) (r.bytes ++ fileOf rows) = (r.bytes,fileOf rows) := by
    have hnl := newline_notMem h.1
    rw [Row.bytes]
    cases hterm : r.newline with
    | true =>
      rw [if_pos rfl,List.append_assoc]
      exact fgets_line hnl hlen
    | false =>
      obtain ⟨_,rfl⟩ := h.2.1.resolve_left (by simp [hterm])
      simp only [Bool.false_eq_true,if_false,List.append_nil,fileOf,List.flatMap_nil]
      exact fgets_last hnl (Nat.le_of_lt hlen)
  rw [hfile,List.length_append] at hfuel
  rw [hfile]
  cases fuel with
  | zero => omega
  | succ fuel =>
    refine ⟨fuel,by omega,?_⟩
    obtain ⟨b,tail,hb⟩ := List.exists_cons_of_ne_nil hne
    rw [hb] at hread ⊢
    rw [List.cons_append] at hread ⊢
    rewrite [loadFrom,hread]
    rfl

theorem Loadable.tail {buffer s : Bytes} {r : Row} {rows : List Row}
    (h : Loadable buffer s (r :: rows)) {s' : Bytes}
    (hsub : ∀ a ∈ assignments s' rows, a ∈ assignments s (r :: rows)) :
    Loadable (fgetsInto r.bytes buffer) s' rows where
  named a ha := h.named a (hsub a ha)
  blank pre spaces newline post hrows :=
    h.blank (r :: pre) spaces newline post (by rw [hrows,List.cons_append])

theorem BlankLast.cons {buffer : Bytes} {r : Row} {rows : List Row}
    (h : BlankLast (fgetsInto r.bytes buffer) rows) (hr : ∀ spaces, r.line ≠ .blank spaces) :
    BlankLast buffer (r :: rows) := by
  intro pre spaces newline post hrows
  cases pre with
  | nil =>
    obtain ⟨rfl,_⟩ := List.cons.inj hrows
    exact absurd rfl (hr spaces)
  | cons r' pre =>
    obtain ⟨rfl,htail⟩ := List.cons.inj hrows
    exact h pre spaces newline post htail

/-- Where nothing goes wrong the loader folds the lines. -/
theorem loadFrom_eq_fold (cleanerOf : Bytes → Exec (Option C)) {rows : List Row} (h : Formed rows)
    {buffer s : Bytes} (hload : Loadable buffer s rows) {fuel : Nat}
    (hfuel : (fileOf rows).length ≤ fuel) (c : ConfigCenter V) :
    loadFrom cleanerOf fuel (fileOf rows) buffer (cut s) c = (do
      let c ← foldLines cleanerOf s c rows
      .ok (c,[])) := by
  induction rows generalizing buffer s fuel c with
  | nil => cases fuel <;> rfl
  | cons r rows ih =>
    obtain ⟨fuel',hfuel',hstep⟩ := loadFrom_row cleanerOf h hfuel buffer (cut s) c
    rw [hstep]
    obtain ⟨b,rest,hbytes,hb⟩ := fgetsInto_row r buffer
    obtain ⟨hvalid,_,hrows⟩ := h
    obtain ⟨line,newline⟩ := r
    cases line with
    | blank spaces =>
      obtain ⟨rfl,hharmless⟩ := hload.blank [] spaces newline rows rfl
      have hspaces := isSpace_of_blank hvalid.2 newline
      have hbreak := (loadLine_blank cleanerOf (cut s) c _ hspaces).1.mpr hharmless
      rw [bufferAfter,List.foldl_nil] at hbreak
      rw [fgetsInto,hbreak]
      rfl
    | comment spaces text =>
      have hline : fgetsInto (Row.mk (.comment spaces text) newline).bytes buffer =
          spaces ++ 35 :: (text ++ b :: rest) := by simpa [Line.text] using hbytes
      have hturn := loadLine_comment cleanerOf (cut s) c hvalid.2.1 (text ++ b :: rest)
      rw [← hline] at hturn
      rw [hturn,ok_bind]
      exact ih hrows (hload.tail fun a ha => ha) hfuel' c
    | header name =>
      have hline : fgetsInto (Row.mk (.header name) newline).bytes buffer =
          91 :: (name ++ 93 :: b :: rest) := by simpa [Line.text] using hbytes
      have hturn := loadLine_header cleanerOf (cut s) c hvalid.2.1 hvalid.2.2 (b :: rest)
      rw [← hline] at hturn
      rw [hturn,ok_bind]
      exact ih hrows (hload.tail fun a ha => ha) hfuel' c
    | assign k v =>
      obtain ⟨hk,hv,hequals,hcomment,hklen,hvlen⟩ := hvalid.2
      obtain ⟨hname,hbracket⟩ := hload.named (s,k) (List.mem_cons_self ..)
      have hline : fgetsInto (Row.mk (.assign k v) newline).bytes buffer =
          k ++ 61 :: (v ++ b :: rest) := by simpa [Line.text] using hbytes
      have hturn := loadLine_assign cleanerOf (cut s) c hk hv hequals hcomment hbracket hklen hvlen
        hb rest
      rw [← hline] at hturn
      rw [hturn,cut_eq hname,foldLines]
      have hrest := ih hrows (hload.tail fun a ha => List.mem_cons_of_mem _ ha) hfuel'
      rw [cut_eq hname] at hrest
      cases hinject : c.configInject cleanerOf s k v with
      | ok w =>
        simp only [ok_bind,hinject]
        exact hrest w.center
      | fault f => simp only [fault_bind,hinject]
      | diverge => simp only [diverge_bind,hinject]
section Tracking

/-- The keys that the loader can write: it takes neither a name with a closing bracket nor a key
that starts with an opening one. -/
def Unbracketed (c : ConfigCenter V) : Prop :=
  ∀ s k, c.lookup s k ≠ none → (93 : UInt8) ∉ s ∧ k.head? ≠ some 91

variable {cleaners : Bytes → Option C} {c : ConfigCenter V}

theorem inject_eq (cleaners : Bytes → Option C) (h : c.Sound) (s k value : Bytes) :
    ∃ w, c.configInject (fun s => .ok (cleaners s)) s k value = .ok w ∧ w.center.Sound ∧
      ∀ s' k', w.center.lookup s' k' =
        if s = s' ∧ k = k' then some ⟨false,.string value⟩ else c.lookup s' k' := by
  obtain ⟨w,hw,_,hsound,hlookup,_⟩ :=
    h.write (s := s) (fun s => .ok (cleaners s)) ⟨false,.string value⟩ fun _ _ _ => rfl
  exact ⟨w,hw,hsound,hlookup⟩

theorem inject_keys (h : c.Sound) {s k value : Bytes} {w : Wrote C V}
    (hw : c.configInject (fun s => .ok (cleaners s)) s k value = .ok w) :
    w.center.Sound ∧ w.center.lookup s k ≠ none ∧
      (∀ s' k', c.lookup s' k' ≠ none → w.center.lookup s' k' ≠ none) ∧
      ∀ s' k', w.center.lookup s' k' ≠ none → (s = s' ∧ k = k') ∨ c.lookup s' k' ≠ none := by
  obtain ⟨w',hw',hsound,hlookup⟩ := inject_eq cleaners h s k value
  obtain rfl := Exec.ok.inj (hw'.symm.trans hw)
  refine ⟨hsound,by simp [hlookup],fun s' k' hold => ?_,fun s' k' hnew => ?_⟩
  · rw [hlookup s' k']
    split
    · simp
    · exact hold
  · rw [hlookup s' k'] at hnew
    split at hnew
    · rename_i hc
      exact .inl hc
    · exact .inr hnew

theorem Unbracketed.loadLine (hc : Unbracketed c) (h : c.Sound) {line s s' : Bytes}
    {c' : ConfigCenter V} (hs : (93 : UInt8) ∉ s)
    (hload : ConfigCenter.loadLine (fun s => .ok (cleaners s)) line s c = .ok (some (s',c'))) :
    Unbracketed c' ∧ c'.Sound ∧ (93 : UInt8) ∉ s' ∧
      ∀ t k, c.lookup t k ≠ none → c'.lookup t k ≠ none := by
  rcases loadLine_cases hload with ⟨rfl,rfl⟩ | ⟨hs',rfl⟩ | ⟨rfl,key,value,w,hkey,hw,rfl⟩
  · exact ⟨hc,h,hs,fun _ _ hold => hold⟩
  · exact ⟨hc,h,hs',fun _ _ hold => hold⟩
  · obtain ⟨hsound,_,hkeeps,honly⟩ := inject_keys h hw
    refine ⟨fun t k hnew => ?_,hsound,hs,hkeeps⟩
    rcases honly t k hnew with ⟨rfl,rfl⟩ | hold
    · exact ⟨hs,hkey⟩
    · exact hc t k hold

theorem Unbracketed.loadFrom (hc : Unbracketed c) (h : c.Sound) {fuel : Nat} {file buffer s : Bytes}
    {c' : ConfigCenter V} {rest : Bytes} (hs : (93 : UInt8) ∉ s)
    (hload : ConfigCenter.loadFrom (fun s => .ok (cleaners s)) fuel file buffer s c =
      .ok (c',rest)) :
    Unbracketed c' ∧ ∀ t k, c.lookup t k ≠ none → c'.lookup t k ≠ none := by
  induction fuel generalizing file buffer s c with
  | zero =>
    cases file with
    | nil =>
      obtain ⟨rfl,_⟩ := Prod.mk.inj (Exec.ok.inj hload)
      exact ⟨hc,fun _ _ hold => hold⟩
    | cons b file => simp [ConfigCenter.loadFrom] at hload
  | succ fuel ih =>
    cases file with
    | nil =>
      obtain ⟨rfl,_⟩ := Prod.mk.inj (Exec.ok.inj hload)
      exact ⟨hc,fun _ _ hold => hold⟩
    | cons b file =>
      obtain ⟨next,hnext,hload⟩ := bind_eq_ok.mp hload
      cases next with
      | none =>
        obtain ⟨rfl,_⟩ := Prod.mk.inj (Exec.ok.inj hload)
        exact ⟨hc,fun _ _ hold => hold⟩
      | some next =>
        obtain ⟨s₁,c₁⟩ := next
        obtain ⟨hc₁,h₁,hs₁,hkeeps⟩ := hc.loadLine h hs hnext
        obtain ⟨hc',hkeeps'⟩ := ih hc₁ h₁ hs₁ hload
        exact ⟨hc',fun t k hold => hkeeps' t k (hkeeps t k hold)⟩

theorem foldLines_keys (cleaners : Bytes → Option C) {rows : List Row} (hrows : Formed rows)
    (h : c.Sound) (s : Bytes) :
    ∃ c', foldLines (fun s => .ok (cleaners s)) s c rows = .ok c' ∧
      (∀ t k, c.lookup t k ≠ none → c'.lookup t k ≠ none) ∧
      (∀ a ∈ assignments s rows, c'.lookup a.1 a.2 ≠ none) ∧
      ∀ t, c'.lookup t [] ≠ none → c.lookup t [] ≠ none := by
  induction rows generalizing s c with
  | nil => exact ⟨c,rfl,fun _ _ hold => hold,by simp [assignments],fun _ hold => hold⟩
  | cons r rows ih =>
    obtain ⟨hvalid,_,hrest⟩ := hrows
    obtain ⟨line,newline⟩ := r
    cases line with
    | blank spaces => exact ih hrest h s
    | comment spaces text => exact ih hrest h s
    | header name => exact ih hrest h name
    | assign k v =>
      obtain ⟨w,hw,hsound,_⟩ := inject_eq cleaners h s k v
      obtain ⟨_,hown,hkeeps,honly⟩ := inject_keys h hw
      obtain ⟨c',hc',hkeeps',hadds,hempty⟩ := ih hrest hsound s
      refine ⟨c',?_,fun t key hold => hkeeps' t key (hkeeps t key hold),fun a ha => ?_,
        fun t ht => ?_⟩
      · simp only [foldLines,hw,ok_bind,hc']
      · rcases List.mem_cons.mp ha with rfl | ha
        · exact hkeeps' s k hown
        · exact hadds a ha
      · rcases honly t [] (hempty t ht) with ⟨_,hk⟩ | hold
        · exact absurd hk hvalid.2.1.1
        · exact hold

/-- A loader that gets to the end of the file with what the fold gives met nothing harmful. -/
theorem blankLast_of_loads {rows : List Row} (hrows : Formed rows) (h : c.Sound)
    {buffer s : Bytes} {fuel : Nat} (hfuel : (fileOf rows).length ≤ fuel) {c' : ConfigCenter V}
    (hload : ConfigCenter.loadFrom (fun s => .ok (cleaners s)) fuel (fileOf rows) buffer (cut s) c =
      .ok (c',[]))
    (hnamed : ∀ a ∈ assignments s rows, (93 : UInt8) ∉ a.1 ∧ a.2.head? ≠ some 91)
    (hc : Unbracketed c) (hempty : ∀ t, c'.lookup t [] = none) : BlankLast buffer rows := by
  induction rows generalizing s buffer fuel c with
  | nil =>
    intro pre spaces newline post hnil
    simp at hnil
  | cons r rows ih =>
    obtain ⟨fuel',hfuel',hstep⟩ := loadFrom_row (fun s => .ok (cleaners s)) hrows hfuel
      buffer (cut s) c
    rw [hstep] at hload
    obtain ⟨b,rest,hbytes,hb⟩ := fgetsInto_row r buffer
    obtain ⟨hvalid,_,hrest⟩ := hrows
    obtain ⟨next,hnext,hload⟩ := bind_eq_ok.mp hload
    obtain ⟨line,newline⟩ := r
    cases line with
    | blank spaces =>
      have hblank := loadLine_blank (fun s => .ok (cleaners s)) (cut s) c
        (buffer.drop ((Row.mk (.blank spaces) newline).bytes.length+1))
        (isSpace_of_blank hvalid.2 newline)
      cases next with
      | none =>
        have hnil : rows = [] := by
          have hfile := (Prod.mk.inj (Exec.ok.inj hload)).2
          cases rows with
          | nil => rfl
          | cons r rows =>
            rw [fileOf,List.flatMap_cons] at hfile
            exact absurd (List.append_eq_nil_iff.mp hfile).1 (row_ne_nil hrest)
        subst hnil
        have hharmless := hblank.1.mp hnext
        intro pre spaces' newline' post hrows
        obtain ⟨rfl,hr,rfl⟩ : pre = [] ∧
            (⟨.blank spaces,newline⟩ : Row) = ⟨.blank spaces',newline'⟩ ∧
            post = [] := by
          cases pre with
          | nil =>
            obtain ⟨hr,hpost⟩ := List.cons.inj hrows
            exact ⟨rfl,hr,hpost.symm⟩
          | cons r pre => simp at hrows
        rw [← hr]
        exact ⟨rfl,hharmless⟩
      | some next =>
        obtain ⟨s₁,c₁⟩ := next
        obtain ⟨value,w,hw,rfl⟩ := hblank.2 s₁ c₁ hnext
        obtain ⟨hc₁,h₁,hs₁,_⟩ := hc.loadLine h (cut_notMem s) hnext
        have hkeeps := (hc₁.loadFrom h₁ hs₁ hload).2
        exact absurd (hempty (cut s)) (hkeeps (cut s) [] (inject_keys h hw).2.1)
    | comment spaces text =>
      have hline : fgetsInto (Row.mk (.comment spaces text) newline).bytes buffer =
          spaces ++ 35 :: (text ++ b :: rest) := by simpa [Line.text] using hbytes
      rw [hline,loadLine_comment _ _ _ hvalid.2.1] at hnext
      obtain rfl := Exec.ok.inj hnext
      exact (ih hrest h hfuel' hload hnamed hc).cons (by simp)
    | header name =>
      have hline : fgetsInto (Row.mk (.header name) newline).bytes buffer =
          91 :: (name ++ 93 :: b :: rest) := by simpa [Line.text] using hbytes
      rw [hline,loadLine_header _ _ _ hvalid.2.1 hvalid.2.2] at hnext
      obtain rfl := Exec.ok.inj hnext
      exact (ih hrest h hfuel' hload hnamed hc).cons (by simp)
    | assign k v =>
      obtain ⟨hk,hv,hequals,hcomment,hklen,hvlen⟩ := hvalid.2
      obtain ⟨hname,hbracket⟩ := hnamed (s,k) (List.mem_cons_self ..)
      have hline : fgetsInto (Row.mk (.assign k v) newline).bytes buffer =
          k ++ 61 :: (v ++ b :: rest) := by simpa [Line.text] using hbytes
      have hturn := hnext
      rw [hline,loadLine_assign _ _ _ hk hv hequals hcomment hbracket hklen hvlen hb] at hturn
      obtain ⟨w,_,hturn⟩ := bind_eq_ok.mp hturn
      obtain rfl := Exec.ok.inj hturn
      obtain ⟨hc₁,h₁,_,_⟩ := hc.loadLine h (cut_notMem s) hnext
      exact (ih hrest h₁ hfuel' hload (fun a ha => hnamed a (List.mem_cons_of_mem _ ha)) hc₁).cons
        (by simp)

end Tracking

/-- A file of the format is loaded as its lines say exactly when it is loadable. -/
theorem loads_iff (C V : Type) {rows : List Row} (hrows : Formed rows) (buffer : Bytes) :
    Loads C V buffer rows ↔ Loadable buffer [] rows := by
  constructor
  · intro h
    have hload := h (fun _ => none) init
    obtain ⟨c',hfold,_,hadds,hempty⟩ := foldLines_keys (fun _ => (none : Option C)) hrows
      (sound_init (V := V)) []
    rw [hfold,ok_bind,configLoadFile] at hload
    obtain ⟨⟨c₁,rest⟩,hfrom,hload⟩ := bind_eq_ok.mp hload
    obtain ⟨_,hc₁⟩ := Prod.mk.inj (Exec.ok.inj hload)
    obtain ⟨rfl,rfl⟩ := Prod.mk.inj hc₁
    have hinit : Unbracketed (init : ConfigCenter V) := fun s k hk => absurd (lookup_init s k) hk
    have hnamed : ∀ a ∈ assignments [] rows, (93 : UInt8) ∉ a.1 ∧ a.2.head? ≠ some 91 :=
      fun a ha => (hinit.loadFrom sound_init (by simp) hfrom).1 a.1 a.2 (hadds a ha)
    refine ⟨hnamed,blankLast_of_loads hrows sound_init le_rfl hfrom hnamed hinit fun t => ?_⟩
    by_contra ht
    exact hempty t ht (lookup_init t [])
  · intro h cleaners c
    have hload := loadFrom_eq_fold (fun s => .ok (cleaners s)) hrows h le_rfl c
    rw [show cut [] = [] from rfl] at hload
    rw [configLoadFile,hload]
    cases foldLines (fun s => .ok (cleaners s)) [] c rows with
    | ok c' => rfl
    | fault f => rfl
    | diverge => rfl

def blankRows : List Row :=
  [⟨.header [115],true⟩,⟨.blank [],true⟩,⟨.assign [107] [118],true⟩]

theorem loads_iff_blankRows : Loads Unit Unit (List.replicate 256 0) blankRows ↔
    Loadable (List.replicate 256 0) [] blankRows :=
  loads_iff Unit Unit (by simp [blankRows,Formed,Line.Valid,Line.text,Solid,Blanks,isSpace,keySize,
    valueStrSize]) (List.replicate 256 0)

theorem blankRows_notLoaded : ¬ Loads Unit Unit (List.replicate 256 0) blankRows := by
  intro h
  have hload : configLoadFile (fun _ => .ok (none : Option Unit)) (List.replicate 256 0)
      (init : ConfigCenter Unit) (some (fileOf blankRows)) = .ok (0,init,[107,61,118,10]) := rfl
  have hclaim := h (fun _ => none) init
  rw [hload] at hclaim
  obtain ⟨c,_,hc⟩ := bind_eq_ok.mp hclaim.symm
  simp at hc

end ConfigFile
end DnsRelay
