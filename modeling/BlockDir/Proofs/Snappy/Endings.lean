import BlockDir.Proofs.Snappy.Format

/-!
# Streams that break off

A stream tells where it ends. Its header ends with the first closed group, every element has the length
that its tag and length bytes call for, and the announced length is reached with the last element and
not before. So no stream is the beginning of another one (`StreamOf.eq_nil_of_append`), and the reader
refuses a stream that breaks off, wherever it does (`decode_of_prefix`).
-/

namespace BlockDir.Snappy

variable {rest more : Bytes}

/-- Two headers that are followed by the same bytes are one. -/
theorem Closes.append_inj {header header' : Bytes} (h : Closes header) (h' : Closes header')
    (heq : header ++ rest = header' ++ more) : header = header' ∧ rest = more := by
  have hread := h.readVarint rest (Nat.le_max_left header.length header'.length)
  have hread' := h'.readVarint more (Nat.le_max_right header.length header'.length)
  rw [heq, hread'] at hread
  obtain rfl : more = rest := (Prod.mk.inj (Option.some.inj hread)).2
  exact ⟨List.append_cancel_right heq, rfl⟩

namespace Element

variable {e e' : Element} {form form' out added added' : Bytes}

theorem Form.size_pos (h : e.Form form) : 0 < e.size := by
  cases h with
  | short some few tagged => exact List.length_pos_iff.2 some
  | long some few tagged counted => exact Nat.lt_of_lt_of_eq (Nat.succ_pos _) counted.symm
  | near least most tagged placed => exact Nat.lt_of_lt_of_le (by decide) least
  | middle least tagged two => exact least
  | far least tagged four => exact least

/-- Two elements that can stand in the same place, and are followed by the same bytes, are one. -/
theorem Form.append_inj (h : e.Form form) (h' : e'.Form form') {produced : Nat}
    (hreaches : e.Reaches produced) (hreaches' : e'.Reaches produced)
    (heq : form ++ rest = form' ++ more) : e = e' ∧ form = form' ∧ rest = more := by
  obtain ⟨tag, tail, rfl⟩ := h.exists_cons
  obtain ⟨tag', tail', rfl⟩ := h'.exists_cons
  obtain ⟨rfl, htail⟩ := List.cons.inj heq
  -- the reader is given room enough for both
  have hread : Element.read produced (produced + (e.size + e'.size)) tag (tail ++ rest) =
      .ok (e, rest) := h.read hreaches (by omega)
  have hread' : Element.read produced (produced + (e.size + e'.size)) tag (tail' ++ more) =
      .ok (e', more) := h'.read hreaches' (by omega)
  have htail' : tail ++ rest = tail' ++ more := htail
  rw [htail', hread'] at hread
  obtain ⟨rfl, rfl⟩ := Prod.mk.inj (Except.ok.inj hread)
  exact ⟨rfl, List.append_cancel_right heq, rfl⟩

theorem Adds.unique (h : e.Adds out added) (h' : e.Adds out added') : added = added' := by
  have hgrown := (adds_iff.1 h).2.symm.trans (adds_iff.1 h').2
  exact List.append_cancel_left (List.toArray_inj hgrown)

end Element

/-- A row that goes on makes more output. The induction follows the shorter row: as long as it lasts,
both have the same elements. -/
theorem Row.eq_nil_of_append {out row data data' : Bytes} (h : Row Element.Form out row data')
    (hmore : Row Element.Form out (row ++ more) data) (hlength : data'.length = data.length) : more = [] := by
  induction h with
  | nil =>
    generalize hrow : [] ++ more = row at hmore
    cases hmore with
    | nil => exact hrow
    | cons stored adds next =>
      have hgrown := next.le_length
      have hpos := stored.size_pos
      rw [List.length_append, adds.length_eq] at hgrown
      omega
  | @cons out added form rest data' e stored adds next ih =>
    obtain ⟨tag, tail, rfl⟩ := stored.exists_cons
    generalize hrow : (tag :: tail) ++ rest ++ more = row at hmore
    cases hmore with
    | nil => cases hrow
    | @cons _ added' form' rest' _ e' stored' adds' next' =>
      rw [List.append_assoc] at hrow
      obtain ⟨rfl, -, rfl⟩ := stored.append_inj stored' (Element.adds_iff.1 adds).1
        (Element.adds_iff.1 adds').1 hrow
      obtain rfl := adds.unique adds'
      exact ih next' hlength

/-- No stream is the beginning of another one. -/
theorem StreamOf.eq_nil_of_append {stream data data' : Bytes} (h : StreamOf stream data')
    (hmore : StreamOf (stream ++ more) data) : more = [] := by
  obtain ⟨header, row, rfl, hheader, hrow⟩ := h
  obtain ⟨header', row', heq, hheader', hrow'⟩ := hmore
  rw [List.append_assoc] at heq
  obtain ⟨rfl, rfl⟩ := hheader.closes.append_inj hheader'.closes heq
  exact hrow.eq_nil_of_append hrow' (hheader.value.symm.trans hheader'.value)

/-- A stream that breaks off is refused. -/
theorem decode_of_prefix {stream front data : Bytes} (h : StreamOf stream data)
    (hfront : front <+: stream) (hne : front ≠ stream) : ∃ e, decode front = .error e := by
  obtain ⟨more, rfl⟩ := hfront
  cases hdecode : decode front with
  | error e => exact ⟨e, rfl⟩
  | ok found =>
    obtain rfl := (decode_eq_ok_iff.1 hdecode).eq_nil_of_append h
    exact absurd (List.append_nil front).symm hne

end BlockDir.Snappy
