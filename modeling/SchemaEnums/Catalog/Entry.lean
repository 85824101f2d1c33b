namespace SchemaEnums

structure CatalogEntry where
  name : String
  number : Int
deriving DecidableEq, Repr

/-- The members of an enum in generated code, in order. -/
abbrev Catalog := List CatalogEntry

/-- The entry as a pair. Entries are equal exactly when their pairs are. -/
def CatalogEntry.toPair (e : CatalogEntry) : String × Int :=
  (e.name, e.number)

theorem CatalogEntry.toPair_inj {d e : CatalogEntry} : d.toPair = e.toPair ↔ d = e := by
  cases d
  cases e
  simp [toPair]

def Catalog.countDistinct (c : Catalog) : Nat :=
  c.eraseDups.length

end SchemaEnums
