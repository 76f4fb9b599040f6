/-! # Descriptions of records

A record is described by its name and its fields, `Name { field: text, .. }`. The two dots
stand for fields that are kept back; a record of which nothing is shown is `Name { .. }`. -/

namespace PlantStore.Text

/-- The fields of a record, each as `name: text`, separated by commas. -/
def fieldList (fields : List (String × String)) : String :=
  String.intercalate ", " (fields.map fun (name, text) => name ++ ": " ++ text)

/-- A record all of whose fields are shown. -/
def record (name : String) (fields : List (String × String)) : String :=
  name ++ " \x7b " ++ fieldList fields ++ " \x7d"

/-- A record of which some fields are kept back. -/
def openRecord (name : String) (fields : List (String × String)) : String :=
  if fields.isEmpty then name ++ " \x7b .. \x7d"
  else name ++ " \x7b " ++ fieldList fields ++ ", .. \x7d"

end PlantStore.Text
