import SymbolAutomata.Automaton.Algebra
import SymbolAutomata.Automaton.Drawing
import SymbolAutomata.Automaton.Edit
import SymbolAutomata.Automaton.Report
import SymbolAutomata.Automaton.Role
import SymbolAutomata.Main
import SymbolAutomata.Pattern.Compile
import SymbolAutomata.Proofs.Automaton.Algebra
import SymbolAutomata.Proofs.Automaton.Alphabet
import SymbolAutomata.Proofs.Automaton.Canonical
import SymbolAutomata.Proofs.Automaton.Complement
import SymbolAutomata.Proofs.Automaton.Declared
import SymbolAutomata.Proofs.Automaton.Least
import SymbolAutomata.Proofs.Automaton.Visits
import SymbolAutomata.Proofs.Pattern.Language
import SymbolAutomata.Proofs.Pattern.Minimized
import SymbolAutomata.Word
import SymbolAutomata.Proofs.Graph.Pairing
import SymbolAutomata.Proofs.Graph.Splicing
import SymbolAutomata.Proofs.Automaton.Silent
import SymbolAutomata.Proofs.Automaton.Listing
import SymbolAutomata.Proofs.Graph.Trimmed
import SymbolAutomata.Proofs.Automaton.Settled
import SymbolAutomata.Proofs.Codec.Tables
import SymbolAutomata.Proofs.Text.Numeral
import SymbolAutomata.Proofs.Pattern.Shorthand
import SymbolAutomata.Proofs.Automaton.Failing
import SymbolAutomata.Proofs.Automaton.Drawing
import SymbolAutomata.Proofs.Graph.Astray
import SymbolAutomata.Proofs.Word
import SymbolAutomata.Proofs.Refinement.Rounds
