import FrontEnd.Proofs.Grammar.Accounting
import FrontEnd.Proofs.Grammar.Locality
import FrontEnd.Proofs.Lexing.Joining
import FrontEnd.Proofs.Lexing.Newlines

/-!
# Files one behind the other

An accepted text, a separator, and a second text: the declarations are those of the first
and those of the second, the latter as many lines further down as the first takes up, and
so are an error in the second and what is reported of it.  Nothing of the first text is
left over where the second begins: its parentheses are closed, and the separator ends
whatever declaration stood last.
-/

namespace FrontEnd

/-! ## Parentheses -/

theorem depthBehind_nested {l r : Entry} {es : List Entry} (hl : l.Is .parenLeft)
    (hr : r.Is .parenRight) (h : ∀ depth, depthBehind depth es = depth) (depth : Nat) :
    depthBehind depth (l :: (es ++ [r])) = depth := by
  rw [depthBehind_cons, depthBehind_append, h, depthBehind_cons, hl, hr]
  rfl

theorem depthBehind_separators {es : List Entry} (h : Separators es) (depth : Nat) :
    depthBehind depth es = depth := by
  induction es with
  | nil => rfl
  | cons e es ih =>
    obtain ⟨he, hes⟩ := List.forall_mem_cons.1 h
    rw [depthBehind_cons, show e.token.kind = .semi from he]
    exact ih hes

/-- A phrase closes all parentheses that it opens and no others. -/
theorem Derives.balanced {path : String} {ph : Phrase} {es : List Entry}
    (h : Derives path ph es) (depth : Nat) : depthBehind depth es = depth := by
  induction h generalizing depth with
  | @headOperator _ o _ hl ho hr | @argumentOperator _ o _ hl ho hr
  | @declOperator _ o _ hl ho hr =>
    have ho' : ∀ depth, depthBehind depth [o] = depth := by
      intro depth
      rcases ho with ho | ho <;> simp [depthBehind, ho]
    exact depthBehind_nested hl hr ho' depth
  | headNested hl h hr ih | argumentNested hl h hr ih | typeArgumentNested hl h hr ih
  | atomNested hl h hr ih | patternCall hl h hr ih => exact depthBehind_nested hl hr ih depth
  | noMembers h | noDecls h => exact depthBehind_separators h depth
  | moreMembers h hs hss ihs ihss =>
    simp [depthBehind_append, depthBehind_separators h, ihs, ihss]
  | moreDecls h hd hds ihd ihds =>
    simp [depthBehind_append, depthBehind_separators h, ihd, ihds]
  | context hl hi hn hc hs hr ha hu ihi ihs ihu =>
    simp [depthBehind_append, depthBehind_cons, hl, hc, hr, ha, ihi, ihs, ihu, depthAfter]
  | _ => simp_all [depthBehind_append, depthBehind_cons, depthAfter]

theorem Tokens.depth_last (x : Lexer) :
    (ofLexer x).last.depth = depthBehind x.current.depth (ofLexer x).entries := by
  induction x using ofLexer.induct with
  | case1 x y he =>
    rw [(ofLexer_end he).1, (ofLexer_end he).2]
    show depthAfter x.current.depth x.next.current.token.kind = _
    rw [show x.next.current.token.kind = .eof from he]
    rfl
  | case2 x y he ih =>
    rw [(ofLexer_more he).1, (ofLexer_more he).2, ih, depthBehind_cons]
    rfl

/-! ## Parsers -/

namespace Parser

variable {s s' : Parser} {d m n : Nat}

theorem current_passBy (n : Nat) (s : Parser) : (s.passBy n).current = s.tokens.entry n := by
  unfold current Tokens.current Tokens.entry
  rw [tokens_passBy, List.headD_eq_head?_getD, List.head?_drop, List.getD_eq_getElem?_getD]

theorem entry_passBy (n i : Nat) (s : Parser) :
    (s.passBy n).tokens.entry i = s.tokens.entry (n + i) := by
  rw [← current_passBy, ← passBy_add, current_passBy]

/-- What is reported of taking a token, and of the one behind it. -/
theorem log_pass (h : 0 < s.left) : s.pass.log.toList = s.log.toList ++
    (s.pass.current.reports ++ s.current.excesses) := by
  have hadv : s.advance.log.toList = s.log.toList ++ s.pass.current.reports := by
    unfold current
    rw [tokens_pass]
    unfold left at h
    unfold advance
    split
    · next he => rw [he] at h; exact absurd h (Nat.lt_irrefl 0)
    · exact Array.toList_appendList
  have hpass : s.pass.log.toList = s.advance.log.toList ++ s.current.excesses := by
    unfold pass Entry.excesses
    cases s.current.excess? <;> simp [report]
  rw [hpass, hadv, List.append_assoc]

/-- Where `s'` has tokens like those of `s`, it reports what `s` reports, changed by `g` if
that is how the reports of the tokens are. -/
theorem log_passBy {g : Diagnostic → Diagnostic} {pre : List Diagnostic} (hs : n ≤ s.left)
    (hs' : n ≤ s'.left)
    (htake : ∀ i < n, (s'.tokens.entry i).excesses = (s.tokens.entry i).excesses.map g)
    (hreach : ∀ i < n, (s'.tokens.entry (i + 1)).reports =
      (s.tokens.entry (i + 1)).reports.map g)
    (hlog : s'.log.toList = pre ++ s.log.toList.map g) :
    (s'.passBy n).log.toList = pre ++ (s.passBy n).log.toList.map g := by
  induction n with
  | zero => exact hlog
  | succ n ih =>
    have hih := ih (by omega) (by omega) (fun i hi => htake i (by omega))
      fun i hi => hreach i (by omega)
    have hleft := s.left_passBy n
    have hleft' := s'.left_passBy n
    rw [passBy_succ, passBy_succ, log_pass (by omega), log_pass (by omega), hih, ← passBy_succ,
      ← passBy_succ, current_passBy, current_passBy, current_passBy, current_passBy,
      hreach n (Nat.lt_succ_self n), htake n (Nat.lt_succ_self n)]
    simp only [List.map_append, List.append_assoc]

/-- What is reported of a token some lines further down. -/
theorem excesses_down {e e' : Entry} (htoken : e'.token = e.token) (hpos : e'.pos = e.pos.down d) :
    e'.excesses = e.excesses.map (Diagnostic.down d) := by
  unfold Entry.excesses Entry.excess?
  rw [htoken, hpos, List.map_map]
  rfl

end Parser

namespace Parse

variable {α β : Type} {s s' t : Parser}

/-- Two steps do the same from two places if the first steps do. -/
theorem bind_congr_of_eq {x y : Parse α} (g : α → Parse β) (h : x s = y s') :
    (x >>= g) s = (y >>= g) s' := by
  show EStateM.bind x g s = EStateM.bind y g s'
  unfold EStateM.bind
  rw [h]

/-- A separator in front of declarations makes no difference. -/
theorem decl?_pass (h : s.current.Is .semi) : decl? s = decl? s.pass := by
  have hsep := optional_separator.some s h
  have hskip : skipSeparators s = skipSeparators s.pass := by
    have hmany : many separator? s =
        (many separator? >>= fun ts => pure (s.current.token :: ts)) s.pass := by
      rw [many_eq takes_separator?]
      exact (bind_ok hsep).trans (by rw [← many_eq takes_separator?])
    refine (bind_congr_of_eq (fun _ => pure ()) hmany).trans ?_
    rw [bind_assoc]
    rfl
  exact bind_congr_of_eq _ hskip

theorem decls_pass (h : s.current.Is .semi) : many decl? s = many decl? s.pass := by
  rw [many_eq takes_decl?]
  exact bind_congr_of_eq _ (decl?_pass h)

/-- Past the first token nothing is new about the ones behind it. -/
theorem entries_pass (h : s.current.token.kind ≠ .eof) (hne : ∀ e ∈ s.tokens.entries, ¬ e.Is .eof) :
    s.left = s.pass.left + 1 ∧ ∀ e ∈ s.pass.tokens.entries, ¬ e.Is .eof := by
  have he := Parser.entries_eq h
  refine ⟨?_, fun e hm => hne e (he ▸ List.mem_cons_of_mem _ hm)⟩
  rw [Parser.left, he, List.length_cons]
  rfl

theorem decl?_not_none (h : s.current.token.kind ≠ .eof) (hsemi : ¬ s.current.Is .semi) :
    decl? s ≠ .ok none t := by
  intro hd
  have hskip : skipSeparators s = .ok () s :=
    skipSeparators_ok (.refl s) (List.forall_mem_nil _) hsemi
  unfold decl? at hd
  rw [bind_ok hskip, kind_bind, if_neg h] at hd
  obtain ⟨d, u, -, hu⟩ := bind_eq_ok hd
  cases hu

theorem endsDecl_semi {k : TokenKind} (h : k = .semi) : EndsDecl k := by
  subst h
  exact ⟨rfl, by decide⟩

theorem left_end (heof : s.current.token.kind = .eof)
    (hne : ∀ e ∈ s.tokens.entries, ¬ e.Is .eof) : s.left = 0 := by
  cases hes : s.tokens.entries with
  | nil => rw [Parser.left, hes, List.length_nil]
  | cons e es =>
    have hcur : s.current = e := by simp [Parser.current, Tokens.current, hes]
    exact absurd (hcur ▸ heof) (hne e (by simp [hes]))

/-- A declaration is read where a separator stands in place of the end. -/
theorem decl?_mirrors {u : Parser} {d : Decl} (hm : s.Mirrors id s.left s')
    (hsep : (s'.passBy s.left).current.Is .semi) (hu : decl? s = .ok (some d) u) :
    ∃ m ≤ s.left, u = s.passBy m ∧ s.left = m + u.left ∧
      decl? s' = .ok (some d) (s'.passBy m) := by
  obtain ⟨m, ⟨hreached, hsum⟩, hlocal⟩ := local_decl?.ok hu
  have hbehind : u.Like id (s'.passBy m) ∨ ((∃ d t, decl? s = .ok (some d) t) ∧
      EndsDecl (s'.passBy m).current.token.kind) := by
    rcases Nat.lt_or_ge m s.left with hmn | hmn
    · exact Or.inl (hreached ▸ hm m hmn)
    · obtain rfl : m = s.left := by omega
      exact Or.inr ⟨⟨d, u, hu⟩, endsDecl_semi hsep⟩
  have hd := hlocal s' (hm.mono (by omega)) hbehind
  rw [Option.map_some, Decl.relocate_id] at hd
  exact ⟨m, by omega, hreached, by omega, hd⟩

/-- Declarations up to the end of a text are read where a separator stands in place of the
end, and then those behind the separator. -/
theorem decls_append {ds : List Decl} (hne : ∀ e ∈ s.tokens.entries, ¬ e.Is .eof)
    (hm : s.Mirrors id s.left s') (hsep : (s'.passBy s.left).current.Is .semi)
    (h : many decl? s = .ok ds t) :
    t = s.passBy s.left ∧
      many decl? s' = (many decl? >>= fun es => pure (ds ++ es)) (s'.passBy s.left) := by
  induction hn : s.left using Nat.strongRecOn generalizing s s' ds with
  | ind n ih =>
    subst hn
    by_cases heof : s.current.token.kind = .eof
    · rw [decls_end heof] at h
      cases h
      rw [left_end heof hne]
      refine ⟨rfl, ?_⟩
      simp only [List.nil_append, bind_pure]
      rfl
    obtain ⟨hleft, hrest⟩ := entries_pass heof hne
    by_cases hsemi : s.current.Is .semi
    · have hsemi' : s'.current.Is .semi := (hm 0 (by omega)).kind.trans hsemi
      rw [hleft, Nat.add_comm] at hm hsep ⊢
      rw [Parser.passBy_add] at hsep ⊢
      rw [decls_pass hsemi] at h
      obtain ⟨ht, hdecls⟩ := ih s.pass.left (by omega) hrest hm.shift hsep h rfl
      rw [Parser.passBy_add, decls_pass hsemi']
      exact ⟨ht, hdecls⟩
    rw [many_eq takes_decl?] at h
    obtain ⟨o, u, hu, hds⟩ := bind_eq_ok h
    cases o with
    | none => exact absurd hu (decl?_not_none heof hsemi)
    | some d =>
      obtain ⟨es, v, hes, he⟩ := bind_eq_ok hds
      cases he
      have hlt := takes_decl? s u d hu
      obtain ⟨m, hle, hreached, hsum, hd⟩ := decl?_mirrors hm hsep hu
      have hneu : ∀ e ∈ u.tokens.entries, ¬ e.Is .eof := by
        rw [hreached, Parser.tokens_passBy]
        exact fun e he => hne e (List.drop_subset _ _ he)
      rw [hsum] at hm hsep ⊢
      rw [Parser.passBy_add] at hsep
      rw [Parser.passBy_add, Parser.passBy_add]
      obtain ⟨ht, hdecls⟩ := ih u.left hlt hneu (hreached ▸ hm.shift) hsep hes rfl
      refine ⟨by rw [ht, hreached], ?_⟩
      rw [many_eq takes_decl?, bind_ok hd, ← many_eq takes_decl?]
      refine (bind_congr_of_eq (fun as => pure (d :: as)) hdecls).trans ?_
      rw [bind_assoc]
      simp only [pure_bind, List.cons_append]

theorem local_decls {f : Location → Location} :
    Local f Same (List.map (Decl.relocate f)) (many decl?) (many decl?) s :=
  local_many takes_decl? takes_decl? fun _ _ => local_decl?.strict

end Parse

/-! ## Two texts -/

def Location.down (n : Nat) (l : Location) : Location :=
  ⟨l.path, l.line + n, l.col⟩

namespace Parser

/-- The parser of the text `s₁` stands for, of `s₂`, and of both with a separator between. -/
structure Joins (n : Nat) (s₁ s₂ s : Parser) : Prop where
  tokens : ∃ late, Tokens.Joins n late s₁.tokens s₂.tokens s.tokens ∧
    s₂.log.toList = late ++ s₂.current.reports
  log : ∃ early : List Diagnostic, s₁.log.toList = early ++ s₁.current.reports ∧
    s.log.toList = early ++ s.current.reports
  path₁ : s.path = s₁.path
  path₂ : s.path = s₂.path

variable {n m : Nat} {s₁ s₂ s : Parser}

theorem current_eq_entry (s : Parser) : s.current = s.tokens.entry 0 :=
  s.current_passBy 0

theorem here_passBy (n : Nat) (s : Parser) :
    (s.passBy n).here = .ofPosition s.path (s.tokens.entry n).pos := by
  unfold here
  rw [path_passBy, current_passBy]

theorem Joins.mirrors_front (h : Joins n s₁ s₂ s) : s₁.Mirrors id s₁.left s := by
  obtain ⟨late, ht, -⟩ := h.tokens
  intro i hi
  have hm := ht.front i hi
  refine ⟨?_, ?_⟩
  · rw [current_passBy, current_passBy, hm.token]
  · rw [here_passBy, here_passBy, hm.pos, h.path₁]
    rfl

theorem Joins.separator (h : Joins n s₁ s₂ s) : (s.passBy s₁.left).current.Is .semi := by
  obtain ⟨late, ht, -⟩ := h.tokens
  rw [current_passBy]
  exact congrArg Token.kind ht.separator

theorem Joins.mirrors_back (h : Joins n s₁ s₂ s) :
    s₂.Mirrors (Location.down n) (s₂.left + 1) (s.passBy (s₁.left + 1)) := by
  obtain ⟨late, ht, -⟩ := h.tokens
  have hall : ∀ i < s₂.left + 1, ∃ late,
      Entry.Moved n late (s₂.tokens.entry i) (s.tokens.entry (s₁.left + 1 + i)) := by
    intro i hi
    cases i with
    | zero => exact ⟨late, ht.first⟩
    | succ i => exact ⟨[], ht.back i (Nat.lt_of_succ_lt_succ hi)⟩
  intro i hi
  obtain ⟨late, hm⟩ := hall i hi
  rw [← passBy_add]
  refine ⟨?_, ?_⟩
  · rw [current_passBy, current_passBy, hm.token]
  · rw [here_passBy, here_passBy, hm.pos, h.path₂]
    rfl

theorem Joins.left (h : Joins n s₁ s₂ s) : s.left = s₁.left + 1 + s₂.left := by
  obtain ⟨late, ht, -⟩ := h.tokens
  exact ht.length

/-- The diagnostics of the first text come first, and then those of the second. -/
theorem Joins.log_back (h : Joins n s₁ s₂ s) (hm : m ≤ s₂.left) :
    ((s.passBy (s₁.left + 1)).passBy m).log.toList =
      (s₁.passBy s₁.left).log.toList ++ (s₂.passBy m).log.toList.map (Diagnostic.down n) := by
  obtain ⟨late, ht, hlate⟩ := h.tokens
  obtain ⟨early, hearly₁, hearly⟩ := h.log
  have hleft := h.left
  have hid : ∀ ds : List Diagnostic, ds.map (Diagnostic.down 0) = ds := List.map_id
  have hreports : ∀ i ≤ s₁.left,
      (s.tokens.entry i).reports = (s₁.tokens.entry i).reports.map (Diagnostic.down 0) := by
    intro i hi
    rcases Nat.lt_or_eq_of_le hi with hlt | rfl
    · rw [(ht.front i hlt).reports, List.nil_append]
    · rw [hid]
      exact ht.reports.trans (congrArg Entry.reports s₁.tokens.entry_length.symm)
  have hstart : s.log.toList = [] ++ s₁.log.toList.map (Diagnostic.down 0) := by
    rw [hid, hearly₁, hearly, current_eq_entry, current_eq_entry, hreports 0 (Nat.zero_le _), hid]
    rfl
  have hfront := log_passBy (n := s₁.left) (Nat.le_refl _) (by omega)
    (fun i hi => excesses_down (ht.front i hi).token (ht.front i hi).pos)
    (fun i hi => hreports (i + 1) hi) hstart
  have hnone : (s.passBy s₁.left).current.excesses = [] := by
    unfold Entry.excesses Entry.excess?
    rw [h.separator]
    rfl
  have hleft' := s.left_passBy s₁.left
  have hbetween : (s.passBy (s₁.left + 1)).log.toList =
      (s₁.passBy s₁.left).log.toList ++ s₂.log.toList.map (Diagnostic.down n) := by
    have hfirst : (s.tokens.entry (s₁.left + 1)).reports = _ := ht.first.reports
    rw [passBy_succ, log_pass (by omega), hnone, ← passBy_succ, current_passBy, hfirst, hfront,
      hlate, hid, current_eq_entry s₂]
    simp
  refine log_passBy hm ?_ (fun i hi => ?_) (fun i hi => ?_) hbetween
  · rw [left_passBy]
    omega
  · rw [entry_passBy]
    cases i with
    | zero => exact excesses_down ht.first.token ht.first.pos
    | succ i =>
      have hback := ht.back i (Nat.lt_of_lt_of_le (Nat.lt_of_succ_lt hi) hm)
      exact excesses_down hback.token hback.pos
  · rw [entry_passBy]
    exact (ht.back i (Nat.lt_of_lt_of_le hi hm)).reports

end Parser

namespace Parse

variable {n : Nat} {s s₁ s₂ t : Parser}

theorem file_ok {ds : List Decl} (h : many decl? s = .ok ds t) :
    file s = .ok ⟨none, ds, t.here, s.here⟩ t := by
  unfold file
  rw [here_bind, bind_ok h, here_bind]
  rfl

theorem file_error {e : SyntaxError} (h : many decl? s = .error e t) : file s = .error e t := by
  unfold file
  rw [here_bind, bind_error h]

theorem ofReads_ok {path : String} {reads : List Read} {ds : List Decl}
    (h : many decl? (.ofReads path reads) = .ok ds t) : File.ofReads path reads =
      (.ok ⟨none, ds, t.here, (Parser.ofReads path reads).here⟩, t.log.toList) := by
  unfold File.ofReads EStateM.run
  rw [file_ok h]

theorem ofReads_error {path : String} {reads : List Read} {e : SyntaxError}
    (h : many decl? (.ofReads path reads) = .error e t) :
    File.ofReads path reads = (.error e, t.log.toList) := by
  unfold File.ofReads EStateM.run
  rw [file_error h]

theorem file_append {ds : List Decl} (h : Parser.Joins n s₁ s₂ s)
    (hne : ∀ e ∈ s₁.tokens.entries, ¬ e.Is .eof) (h₁ : many decl? s₁ = .ok ds t) :
    t = s₁.passBy s₁.left ∧
    many decl? s = (many decl? >>= fun es => pure (ds ++ es)) (s.passBy (s₁.left + 1)) := by
  obtain ⟨ht, hdecls⟩ := decls_append hne h.mirrors_front h.separator h₁
  refine ⟨ht, hdecls.trans ?_⟩
  rw [Parser.passBy_succ]
  exact bind_congr_of_eq _ (decls_pass h.separator)

end Parse

theorem Position.line_afterAll (p : Position) (cs : List Char) :
    (p.afterAll cs).line = p.line + cs.count '\n' := by
  induction cs generalizing p with
  | nil => rfl
  | cons c cs ih =>
    rw [afterAll_cons, ih, List.count_cons]
    unfold after
    by_cases hc : c = '\n'
    · simp [hc]
      omega
    · simp [hc]

open Utf8

theorem Parser.joins_ofText {path : String} {ps : List Piece} (qs : List Piece)
    (hdepth : (Tokens.ofText (.ofPieces ps)).last.depth = 0) :
    Parser.Joins (Position.start.afterAll (ps.map Piece.rune)).line
      (.ofText path (.ofPieces ps)) (.ofText path (.ofPieces qs))
      (.ofText path (.ofPieces (ps ++ Lexer.divider ++ qs))) := by
  refine ⟨⟨_, Tokens.joins qs hdepth, Array.toList_appendList⟩,
    ⟨_, Array.toList_appendList, ?_⟩, rfl, rfl⟩
  rw [← (Lexer.continues_join ps qs).2]
  exact Array.toList_appendList

/-- What the bytes of two texts with a separator between them are made of. -/
theorem body_join {bytes₁ bytes₂ : ByteArray}
    (h : Piece.at? bytes₂ 0 ≠ some (.scalar Source.byteOrderMark)) :
    body (pieces (bytes₁ ++ ";\n".toUTF8 ++ bytes₂) 0) =
      body (pieces bytes₁ 0) ++ Lexer.divider ++ body (pieces bytes₂ 0) := by
  have hsep : ";\n".toUTF8 = [';', '\n'].utf8Encode := String.utf8Encode_toList.symm
  rw [hsep, ByteArray.append_assoc, pieces_append (fresh_encode _ _ _) (Nat.zero_le _),
    pieces_encode_append, body_of_not_mark h, List.append_assoc]
  exact body_append (by decide) _ _

/-- So the parsers of the three texts stand to each other, if the first closes all parentheses
that it opens. -/
theorem Parser.joins_ofReads {path : String} {bytes₁ bytes₂ : ByteArray}
    {reads₁ reads₂ reads : List Read} (h₁ : Delivers reads₁ bytes₁)
    (h₂ : Delivers reads₂ bytes₂) (h : Delivers reads (bytes₁ ++ ";\n".toUTF8 ++ bytes₂))
    (hmark : Piece.at? bytes₂ 0 ≠ some (.scalar Source.byteOrderMark))
    (hdepth : (Tokens.ofText (.ofReads reads₁)).last.depth = 0) :
    Parser.Joins ((Text.ofReads reads₁).runes.count '\n' + 1) (.ofReads path reads₁)
      (.ofReads path reads₂) (.ofReads path reads) := by
  have hline : (Text.ofReads reads₁).runes.count '\n' + 1 =
      (Position.start.afterAll ((body (pieces bytes₁ 0)).map Piece.rune)).line := by
    rw [Position.line_afterAll, Text.ofReads_eq_ofPieces h₁, Nat.add_comm]
    rfl
  rw [Text.ofReads_eq_ofPieces h₁] at hdepth
  unfold Parser.ofReads
  rw [hline, Text.ofReads_eq_ofPieces h₁, Text.ofReads_eq_ofPieces h₂,
    Text.ofReads_eq_ofPieces h, body_join hmark]
  exact Parser.joins_ofText _ hdepth

def File.error? (path : String) (reads : List Read) : Option SyntaxError :=
  match (File.ofReads path reads).1 with
  | .ok _ => none
  | .error e => some e

theorem File.error?_eq_some {path : String} {reads : List Read} {e : SyntaxError} :
    File.error? path reads = some e ↔ (File.ofReads path reads).1 = .error e := by
  unfold File.error?
  cases (File.ofReads path reads).1 <;> simp

/-- An accepted text with a separator and a newline behind it may be put in front of any
other text. -/
theorem File.ofReads_append {path : String} {bytes₁ bytes₂ : ByteArray}
    {reads₁ reads₂ reads : List Read} {f₁ : File} {log₁ : List Diagnostic}
    (h₁ : Delivers reads₁ bytes₁) (h₂ : Delivers reads₂ bytes₂)
    (h : Delivers reads (bytes₁ ++ ";\n".toUTF8 ++ bytes₂))
    (hmark : Piece.at? bytes₂ 0 ≠ some (.scalar Source.byteOrderMark))
    (hok : File.ofReads path reads₁ = (.ok f₁, log₁)) :
    let n := (Text.ofReads reads₁).runes.count '\n' + 1
    (File.ofReads path reads).2 =
        log₁ ++ (File.ofReads path reads₂).2.map (Diagnostic.down n) ∧
      match (File.ofReads path reads₂).1 with
      | .ok f₂ => ∃ f, (File.ofReads path reads).1 = .ok f ∧
          f.decls = f₁.decls ++ f₂.decls.map (Decl.relocate (Location.down n))
      | .error e => (File.ofReads path reads).1 = .error (e.relocate (Location.down n)) := by
  intro n
  have hbalanced : (Tokens.ofText (.ofReads reads₁)).last.depth = 0 :=
    (Tokens.depth_last _).trans ((derives_file hok).balanced 0)
  have hjoins : Parser.Joins n (.ofReads path reads₁) (.ofReads path reads₂)
      (.ofReads path reads) :=
    Parser.joins_ofReads h₁ h₂ h hmark hbalanced
  cases hd₁ : Parse.many Parse.decl? (.ofReads path reads₁) with
  | error e t₁ =>
    rw [Parse.ofReads_error hd₁] at hok
    cases hok
  | ok ds₁ t₁ =>
    obtain ⟨rfl, hdecls⟩ := Parse.file_append hjoins (Tokens.kind_ne_eof _) hd₁
    rw [Parse.ofReads_ok hd₁] at hok
    cases hok
    have hback := hjoins.mirrors_back
    cases hd₂ : Parse.many Parse.decl? (.ofReads path reads₂) with
    | ok ds₂ t₂ =>
      obtain ⟨m, ⟨hreached, hleft⟩, hlocal⟩ :=
        (Parse.local_decls (f := Location.down n)).ok hd₂
      have hm : m ≤ (Parser.ofReads path reads₂).left := by omega
      have hd := hlocal _ (hback.mono (Nat.le_succ_of_le hm))
        (Or.inl (hreached ▸ hback m (Nat.lt_succ_of_le hm)))
      have hall := hdecls.trans (Parse.bind_ok hd)
      rw [Parse.ofReads_ok hall, Parse.ofReads_ok hd₂, hreached]
      exact ⟨hjoins.log_back hm, _, rfl, rfl⟩
    | error e t₂ =>
      obtain ⟨-, m, ⟨hreached, hleft⟩, hlocal⟩ :=
        (Parse.local_decls (f := Location.down n)).error hd₂
      have hm : m ≤ (Parser.ofReads path reads₂).left := by omega
      have hd := hlocal _ (hback.mono (Nat.succ_le_succ hm))
      have hall := hdecls.trans (Parse.bind_error hd)
      rw [Parse.ofReads_error hall, Parse.ofReads_error hd₂, hreached]
      exact ⟨hjoins.log_back hm, rfl⟩

/-- A first text with a newline in parentheses and a flaw, and a second with a flaw and an
error. -/
theorem File.ofReads_append_error : ∃ f₁ log₁ e,
    File.ofReads "" [.bytes "f = (g\n08)".toUTF8] = (.ok f₁, log₁) ∧
    Piece.at? "g = 0b2 )".toUTF8 0 ≠ some (.scalar Source.byteOrderMark) ∧
    (File.ofReads "" [.bytes "g = 0b2 )".toUTF8]).1 = .error e ∧ e.loc = ⟨"", 1, 9⟩ ∧
    (File.ofReads "" [.bytes ("f = (g\n08)".toUTF8 ++ ";\n".toUTF8 ++ "g = 0b2 )".toUTF8)]).1 =
      .error (e.relocate (Location.down 2)) ∧
    (File.ofReads "" [.bytes ("f = (g\n08)".toUTF8 ++ ";\n".toUTF8 ++ "g = 0b2 )".toUTF8)]).2 =
      log₁ ++ (File.ofReads "" [.bytes "g = 0b2 )".toUTF8]).2.map (Diagnostic.down 2) := by
  have hok : (File.ofReads "" [.bytes "f = (g\n08)".toUTF8]).1.toOption.isSome = true := by
    decide +kernel
  have hmark : Piece.at? "g = 0b2 )".toUTF8 0 ≠ some (.scalar Source.byteOrderMark) := by
    decide +kernel
  have hloc : (File.error? "" [.bytes "g = 0b2 )".toUTF8]).map (·.loc) = some ⟨"", 1, 9⟩ := by
    decide +kernel
  have hlines : (Text.ofReads [.bytes "f = (g\n08)".toUTF8]).runes.count '\n' = 1 := by
    decide +kernel
  cases hf : File.ofReads "" [.bytes "f = (g\n08)".toUTF8] with
  | mk r log₁ =>
    cases r with
    | error e => rw [hf] at hok; cases hok
    | ok f₁ =>
      obtain ⟨hlog, hresult⟩ :=
        File.ofReads_append (.single _) (.single _) (.single _) hmark hf
      obtain ⟨e, herror, hloc⟩ := Option.map_eq_some_iff.1 hloc
      have he := File.error?_eq_some.1 herror
      rw [hlines, he] at hresult
      rw [hlines] at hlog
      exact ⟨f₁, log₁, e, rfl, hmark, he, hloc, hresult, hlog⟩

end FrontEnd
